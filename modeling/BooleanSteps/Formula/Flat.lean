import BooleanSteps.Formula.Basic

/-!
# Flat formulas

Flattening changes the grouping of AND and OR and nothing else: operands of an
operand of the same connective move up, and a connective with fewer than two
operands gives way to its operand or its neutral constant.
-/

namespace BooleanSteps.Formula

mutual

/-- The formula with nested nodes of one connective taken together. -/
def flat : Formula → Formula
  | .const value => .const value
  | .var name => .var name
  | .not f => .not f.flat
  | .nary c fs => collapse c ((flatAll fs).flatMap (splice c))
  | .xor l r => .xor l.flat r.flat

/-- Several formulas, each flattened. -/
def flatAll : List Formula → List Formula
  | [] => []
  | f :: fs => f.flat :: flatAll fs

end

@[simp] theorem flatAll_eq_map (fs : List Formula) : flatAll fs = fs.map flat := by
  induction fs with
  | nil => rfl
  | cons f fs ih => simp [flatAll, ih]

@[simp] theorem flat_const (value : Bool) : flat (.const value) = .const value := rfl

@[simp] theorem flat_var (name : String) : flat (.var name) = .var name := rfl

@[simp] theorem flat_not (f : Formula) : flat (.not f) = .not f.flat := rfl

@[simp] theorem flat_nary (c : Connective) (fs : List Formula) :
    flat (.nary c fs) = collapse c ((fs.map flat).flatMap (splice c)) := by
  simp [flat]

@[simp] theorem flat_xor (l r : Formula) : flat (.xor l r) = .xor l.flat r.flat := rfl

end BooleanSteps.Formula
