import BooleanSteps.Digit
import BooleanSteps.Formula.Key

/-!
# Interpretations

An interpretation gives truth values to variables. Evaluation reads the operands
of AND and OR from the left and stops at the first that decides the result, so a
variable without a value matters only if it is reached.
-/

namespace BooleanSteps

/-- Truth values of variables, each variable once. -/
structure Interpretation where
  values : List (String × Bool)
deriving DecidableEq, Inhabited

/-- The failure of an evaluation. -/
inductive EvaluationError where
  /-- A variable that is needed has no value. -/
  | unbound (name : String)
deriving DecidableEq

/-- What the failure is reported as. -/
def EvaluationError.message : EvaluationError → String
  | unbound name => "variable '" ++ name ++ "' has no value in the interpretation"

namespace Interpretation

/-- The interpretation of no variable. -/
def empty : Interpretation := ⟨[]⟩

/-- The value of a variable, if it has one. -/
def value? (i : Interpretation) (name : String) : Option Bool := i.values.lookup name

/-- Gives a variable a value in place of the one it may have. -/
def assign (i : Interpretation) (name : String) (value : Bool) : Interpretation :=
  if i.values.any (·.1 == name) then
    ⟨i.values.map fun entry => if entry.1 == name then (name, value) else entry⟩
  else ⟨i.values ++ [(name, value)]⟩

/-- The values given one after the other. -/
def ofList (entries : List (String × Bool)) : Interpretation :=
  entries.foldl (fun i entry => i.assign entry.1 entry.2) empty

/-- Every way to give the names values. The value of the first name changes least
often, from false to true. -/
def assignments : List String → List (List (String × Bool))
  | [] => [[]]
  | name :: names =>
      [false, true].flatMap fun value => (assignments names).map ((name, value) :: ·)

/-- Every interpretation of the variables, counting up in binary with the first
variable as the most significant digit. -/
def enumerate (names : List String) : List Interpretation :=
  (assignments names).map Interpretation.mk

/-- The literals that hold, by name: a false variable is written with a tilde. -/
def render (i : Interpretation) : String :=
  let entries := i.values.mergeSort fun a b => decide (a.1 ≤ b.1)
  "\x7b" ++ ", ".intercalate (entries.map fun (name, value) =>
    if value then name else "~" ++ name) ++ "\x7d"

end Interpretation

namespace Formula

mutual

/-- The truth value of the formula. -/
def evaluate (i : Interpretation) : Formula → Except EvaluationError Bool
  | .const value => .ok value
  | .var name =>
      match i.value? name with
      | some value => .ok value
      | none => .error (.unbound name)
  | .not f => do
      let value ← f.evaluate i
      return !value
  | .nary c fs => evaluateOperands i c fs
  | .xor l r => do
      let left ← l.evaluate i
      let right ← r.evaluate i
      return left != right

/-- The truth value of a connective's operands, read up to the first absorbing one. -/
def evaluateOperands (i : Interpretation) (c : Connective) :
    List Formula → Except EvaluationError Bool
  | [] => .ok c.neutral
  | f :: fs => do
      let value ← f.evaluate i
      if value = c.absorbing then .ok value else evaluateOperands i c fs

end

end Formula

/-! ## Truth tables -/

/-- One row of a table that compares two formulas. -/
structure TableRow where
  interpretation : Interpretation
  left : Bool
  right : Bool
deriving DecidableEq

/-- The interpretation and the two values. -/
def TableRow.render (row : TableRow) : String :=
  row.interpretation.render ++ " " ++ digit row.left ++ " " ++ digit row.right

/-- The values of two formulas under every assignment of the variables of the first. -/
def compareTable (f g : Formula) : Except EvaluationError (List TableRow) :=
  (Interpretation.enumerate f.vars).mapM fun i => do
    let left ← f.evaluate i
    let right ← g.evaluate i
    return ⟨i, left, right⟩

end BooleanSteps
