import BooleanSteps.Formula.Parser
import BooleanSteps.Simplification
import BooleanSteps.Text.Blank
import BooleanSteps.Text.Json

/-!
# Reports

A report holds an expression as it was given, in its tidy form and simplified,
with the steps between. The tidy form has one space between its words and writes
the middle dot as `&`; it is the form that is read.
-/

namespace BooleanSteps

/-- The middle dot is written as an ampersand. -/
def replaceDot (ch : Char) : Char := if ch = '·' then '&' else ch

/-- The text with middle dots replaced and one space between its words. -/
def tidy (text : String) : String :=
  " ".intercalate (Text.words (text.map replaceDot))

/-- The failure of simplifying a written formula. -/
inductive Failure where
  | unreadable (e : ReadError)
  | unsettled (e : IterationLimit)
deriving DecidableEq

/-- What the failure is reported as. -/
def Failure.message : Failure → String
  | unreadable e => e.message
  | unsettled e => e.message

/-- The simplification of the formula that the tidy form of the text is written for. -/
def simplifyText (text : String) (given : Option Nat) : Except Failure Simplification := do
  let formula ← (Formula.parse (tidy text)).mapError .unreadable
  (formula.simplify given).mapError .unsettled

/-- An expression, its simplified form and the steps between. -/
structure Report where
  given : String
  normalized : String
  simplified : String
  steps : List Step
deriving DecidableEq

namespace Report

/-- The report on the simplification of a text. -/
def ofSimplification (text : String) (s : Simplification) : Report :=
  ⟨Text.trim text, tidy text, s.formula.render, s.steps⟩

/-- The report on a text. -/
def ofText (text : String) (given : Option Nat) : Except Failure Report :=
  (simplifyText text given).map (ofSimplification text)

/-- A step as a JSON record. -/
def stepDocument (step : Step) : String :=
  Text.Json.record 2
    [("rule", Text.Json.quote step.law.title), ("before", Text.Json.quote step.before),
      ("after", Text.Json.quote step.after)]

/-- The report as a JSON text. -/
def document (r : Report) : String :=
  Text.Json.record 0
    [("original", Text.Json.quote r.given), ("normalized", Text.Json.quote r.normalized),
      ("simplified", Text.Json.quote r.simplified),
      ("steps", Text.Json.list 1 (r.steps.map stepDocument))]

end Report

end BooleanSteps
