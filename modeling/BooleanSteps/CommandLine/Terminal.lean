import BooleanSteps.CommandLine.Log
import BooleanSteps.Formula.Drawing
import BooleanSteps.Report
import BooleanSteps.Text.Lines

/-!
# Writing

What is written while the program runs goes line by line to one of two streams. How
it looks is left to the terminal: which parts of a text stand out, how a formula is
drawn, how a report becomes a document and how a record of the log is shown.
-/

namespace BooleanSteps.CommandLine

/-! ## Terminals -/

/-- The parts of a text that may stand out. -/
inductive Emphasis where
  | heading
  | formula
  | law
deriving DecidableEq

/-- How things look. -/
structure Terminal where
  /-- A part of a text that stands out. -/
  emphasize : Emphasis → String → String
  /-- A formula as a tree. -/
  drawing : Formula → String
  /-- A report as a document. -/
  document : Report → String
  /-- A record of the log. It may show the time, which is known by how many things have
  been written before. If colors are refused, it has none. -/
  record : (plain : Bool) → Nat → Record → String

namespace Terminal

/-- A part of a text. It does not stand out if colors are refused. -/
def mark (t : Terminal) (plain : Bool) (emphasis : Emphasis) (text : String) : String :=
  if plain then text else t.emphasize emphasis text

/-- A terminal without colors and without a clock. The speaker is named in the records
that are hidden unless the log is talkative. -/
def bare : Terminal where
  emphasize _ text := text
  drawing := Formula.drawing
  document := Report.document
  record _ _ r :=
    "[" ++ r.severity.label ++ "] " ++
      (if Severity.debug.rank ≤ r.severity.rank then "(1) " ++ r.speaker ++ ": " else "") ++ r.text

end Terminal

/-! ## Emissions -/

/-- What is written: a line of the standard output, or a record of the log. -/
inductive Emission where
  | line (text : String)
  | result (f : Formula)
  | unchanged
  | stepsHeading
  /-- A step behind its number. -/
  | step (number : Nat) (s : Step)
  | drawing (f : Formula)
  | document (r : Report)
  | record (r : Record)
deriving DecidableEq

/-- A text at the right of a column. -/
def alignRight (width : Nat) (text : String) : String :=
  .ofList (List.replicate (width - text.length) ' ') ++ text

namespace Emission

/-- Whether the emission is shown at a verbosity. -/
def isShown (verbosity : Nat) : Emission → Bool
  | record r => r.isShown verbosity
  | _ => true

/-- Whether the emission goes to the error stream. All records but errors go to the
standard output. -/
def isError : Emission → Bool
  | record r => r.severity = .error
  | _ => false

/-- What the emission looks like when `moment` things have been written before. -/
def text (t : Terminal) (plain : Bool) (moment : Nat) : Emission → String
  | line text => text
  | result f => t.mark plain .heading "Simplified:" ++ " " ++ t.mark plain .formula f.render
  | unchanged => "No simplification law applied."
  | stepsHeading => t.mark plain .heading "Steps:"
  | step number s =>
      alignRight 4 (toString number) ++ ". " ++ t.mark plain .law s.law.title ++ " : " ++
        s.before ++ " => " ++ t.mark plain .formula s.after
  | drawing f => t.drawing f
  | document r => t.document r
  | record r => t.record plain moment r

end Emission

/-- What the selected emissions look like, a line each, when `moment` things have been
written before. -/
def Terminal.write (t : Terminal) (plain : Bool) (selected : Emission → Bool) (moment : Nat)
    (emissions : List Emission) : String :=
  Text.unlines (((emissions.zipIdx moment).filter fun (emission, _) => selected emission).map
    fun (emission, n) => emission.text t plain n)

end BooleanSteps.CommandLine
