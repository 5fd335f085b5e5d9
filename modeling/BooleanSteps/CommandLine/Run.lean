import BooleanSteps.CommandLine.Options
import BooleanSteps.CommandLine.Terminal
import BooleanSteps.Text.Lines

/-!
# Running the command line

One expression is simplified and shown as a text or as a document. Without an
expression among the arguments each line of the input that is not blank is one,
and a line that fails does not stop those after it. The lines that fail are counted
in 32 bits.
-/

namespace BooleanSteps.CommandLine

/-- Why the program fails. -/
inductive RunError where
  /-- The expression is blank. -/
  | emptyExpression
  | expression (e : Failure)
  /-- The number of lines that failed. -/
  | lines (count : Int32)
  /-- That number does not fit into its bits. -/
  | overflow
deriving DecidableEq

/-- What the failure is reported as. -/
def RunError.message : RunError → String
  | emptyExpression => "empty expression"
  | expression e => e.message
  | lines count => toString count ++ " expression(s) failed"
  | overflow => "attempt to add with overflow"

/-- Everything written for one expression, shown or not, and the failure if there is one. -/
structure Attempt where
  emissions : List Emission
  error : Option RunError
deriving DecidableEq

/-- What is shown of the steps. -/
def stepEmissions (steps : List Step) : List Emission :=
  if steps.isEmpty then [.unchanged]
  else .stepsHeading :: steps.zipIdx.map fun (step, i) => .step (i + 1) step

/-- What is shown of a simplification. -/
def resultEmissions (o : Options) (expression : String) (s : Simplification) : List Emission :=
  if o.json then [.document (.ofSimplification expression s)]
  else
    .result s.formula :: stepEmissions s.steps ++ if o.tree then [.drawing s.formula] else []

/-- Simplifies one expression. -/
def attempt (o : Options) (expression : String) : Attempt :=
  let tidied := tidy expression
  if tidied = "" then ⟨[], some .emptyExpression⟩
  else
    let opening := Emission.record ⟨.info, "boolsimp", "simplifying " ++ tidied⟩
    match Formula.parse tidied with
    | .error e => ⟨[opening], some (.expression (.unreadable e))⟩
    | .ok f =>
        let records := (simplificationRecords f o.limit).map Emission.record
        match f.simplify o.limit with
        | .error e => ⟨opening :: records, some (.expression (.unsettled e))⟩
        | .ok s =>
            ⟨opening :: records ++ resultEmissions o expression s, none⟩

/-- How the program ends. -/
inductive Ending where
  | success
  | failure (e : RunError)
  /-- The arguments do not fit. -/
  | refused
deriving DecidableEq

namespace Ending

/-- The end of a run that may have failed. -/
def ofError : Option RunError → Ending
  | none => success
  | some e => failure e

/-- The exit code. -/
def code : Ending → Nat
  | success => 0
  | failure .overflow => 101
  | failure _ => 1
  | refused => 2

end Ending

/-- What the program writes and how it ends. -/
structure Outcome where
  emissions : List Emission
  ending : Ending
deriving DecidableEq

namespace Outcome

/-- The standard output on a terminal, when `moment` things have been written before. -/
def outputOn (t : Terminal) (plain : Bool) (moment : Nat) (outcome : Outcome) : String :=
  t.write plain (!·.isError) moment outcome.emissions

/-- The standard output on the bare terminal. -/
def output (outcome : Outcome) : String := outcome.outputOn .bare true 0

/-- The log on the error stream, on the bare terminal. -/
def errorLog (outcome : Outcome) : String :=
  Terminal.bare.write true Emission.isError 0 outcome.emissions

end Outcome

/-! ## Lines -/

/-- What happens when a count of 32 bits overflows, which depends on how the program
is built. -/
inductive Overflow where
  /-- The count starts again from below. -/
  | wraps
  /-- The program stops. -/
  | stops
deriving DecidableEq

/-- The next count. -/
def Overflow.next? (overflow : Overflow) (count : Int32) : Option Int32 :=
  match overflow with
  | wraps => some (count + 1)
  | stops => if count = Int32.maxValue then none else some (count + 1)

/-- How far the reading of lines has come. -/
structure Progress where
  /-- What has been written. -/
  emissions : List Emission
  /-- The number of lines that have failed. -/
  failures : Int32
deriving DecidableEq

/-- The record of the log that the failure of a line leaves. -/
def failureRecord (line : String) (e : RunError) : Emission :=
  .record ⟨.error, "boolsimp", Text.trim line ++ ": " ++ e.message⟩

namespace Progress

variable (overflow : Overflow) (o : Options)

/-- Nothing has been read. -/
def start : Progress := ⟨[], 0⟩

/-- Writes what is shown of the emissions. -/
def write (p : Progress) (emissions : List Emission) : Progress :=
  { p with emissions := p.emissions ++ emissions.filter (·.isShown o.verbosity) }

/-- Simplifies a line if it is not blank, and counts it if it fails. The program may
stop there. -/
def readLine (p : Progress) (line : String) : Except Progress Progress :=
  if Text.trim line = "" then .ok p
  else
    let result := attempt o line
    let p := p.write o result.emissions
    match result.error with
    | none => .ok p
    | some e =>
        let p := p.write o [failureRecord line e]
        match overflow.next? p.failures with
        | some failures => .ok { p with failures }
        | none => .error p

/-- Reads all lines in turn. -/
def readLines (p : Progress) : List String → Except Progress Progress
  | [] => .ok p
  | line :: rest => do
      let p ← p.readLine overflow o line
      p.readLines rest

/-- The outcome behind the last line. -/
def outcome (p : Progress) : Outcome :=
  ⟨p.emissions, if 0 < p.failures then .failure (.lines p.failures) else .success⟩

end Progress

/-- Simplifies each line that is not blank. -/
def runLines (overflow : Overflow) (o : Options) (lines : List String) : Outcome :=
  match Progress.start.readLines overflow o lines with
  | .ok p => p.outcome
  | .error p => ⟨p.emissions, .failure .overflow⟩

/-- Simplifies one expression. -/
def runExpression (o : Options) (expression : String) : Outcome :=
  let result := attempt o expression
  { emissions := result.emissions.filter (·.isShown o.verbosity)
    ending := .ofError result.error }

/-- Whether the program reads its input. -/
def readsInput (options : Except Stop Options) : Bool :=
  match options with
  | .ok o => o.expression.isNone
  | .error _ => false

/-- Runs the program on its options and its input. -/
def run (options : Except Stop Options) (input : String) (overflow : Overflow := .wraps) :
    Outcome :=
  match options with
  | .error .help => ⟨helpText.map .line, .success⟩
  | .error .refused => ⟨[], .refused⟩
  | .ok o =>
      match o.expression with
      | some expression => runExpression o expression
      | none => runLines overflow o (Text.lines input)

end BooleanSteps.CommandLine
