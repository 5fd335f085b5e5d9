import BooleanSteps.Simplification

/-!
# The log

While a formula is simplified, records tell what happens: the formula after each
pass, and each step at the moment its law is applied, in the dropped last pass
too. Which records are shown depends on how talkative the log is to be.
-/

namespace BooleanSteps.CommandLine

/-- How much a record matters. -/
inductive Severity where
  | error
  | warn
  | info
  | debug
  | trace
deriving DecidableEq

namespace Severity

/-- The place from the most severe on. -/
def rank : Severity → Nat
  | error => 0
  | warn => 1
  | info => 2
  | debug => 3
  | trace => 4

/-- The label of a record. -/
def label : Severity → String
  | error => "ERROR"
  | warn => "WARN"
  | info => "INFO"
  | debug => "DEBUG"
  | trace => "TRACE"

/-- The least severe records shown at a verbosity. -/
def threshold : Nat → Severity
  | 0 => warn
  | 1 => info
  | 2 => debug
  | _ => trace

end Severity

/-- A record of the log. -/
structure Record where
  severity : Severity
  /-- The part of the program that speaks. -/
  speaker : String
  text : String
deriving DecidableEq

namespace Record

/-- Whether the record is shown at a verbosity. -/
def isShown (verbosity : Nat) (r : Record) : Bool :=
  r.severity.rank ≤ (Severity.threshold verbosity).rank

end Record

/-- A record of the simplifier. -/
def simplifierRecord (severity : Severity) (text : String) : Record :=
  ⟨severity, "boolsimp::simplify", text⟩

/-- A record for each step of a derivation. -/
def stepRecords {α : Type} (d : Derived α) : List Record :=
  d.steps.map fun step =>
    ⟨.trace, "boolsimp::explanation", step.law.title ++ ": " ++ step.before ++ " => " ++ step.after⟩

/-- The records of a run that follows a number of changing passes. -/
def runRecords (limit : Nat) (passes : Nat) : Run → List Record
  | .settled result pass =>
      stepRecords pass ++
        [simplifierRecord .debug
          ("fixpoint after " ++ toString passes ++ " iteration(s): " ++ result.render)]
  | .exhausted pass =>
      stepRecords pass ++
        [simplifierRecord .warn
          ("no fixpoint within " ++ toString limit ++ " iterations, last expression: " ++
            pass.value.render)]
  | .changed pass rest =>
      stepRecords pass ++
        simplifierRecord .debug
          ("iteration " ++ toString (passes + 1) ++ ": " ++ pass.value.render) ::
        runRecords limit (passes + 1) rest

/-- The records of a simplification. -/
def simplificationRecords (f : Formula) (given : Option Nat) : List Record :=
  stepRecords f.normalizeDerived ++
    simplifierRecord .debug ("normalized: " ++ f.normalize.render) ::
    runRecords (f.limit given) 0 (f.run given)

end BooleanSteps.CommandLine
