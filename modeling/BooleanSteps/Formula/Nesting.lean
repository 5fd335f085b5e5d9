import BooleanSteps.Formula.Basic

/-!
# Nesting

How many negations and XOR nodes stand above each other. AND and OR do not count.
-/

namespace BooleanSteps.Formula

mutual

/-- The most negations and XOR nodes on a path from the root to a leaf. -/
def nesting : Formula → Nat
  | .const _ | .var _ => 0
  | .not f => f.nesting + 1
  | .nary _ fs => nestingAll fs
  | .xor l r => max l.nesting r.nesting + 1

/-- The most negations and XOR nodes above each other in one of several formulas. -/
def nestingAll : List Formula → Nat
  | [] => 0
  | f :: fs => max f.nesting (nestingAll fs)

end

end BooleanSteps.Formula
