import BooleanSteps.Formula.Everywhere
import BooleanSteps.Formula.Key
import BooleanSteps.Formula.Printer

/-!
# Normal and irreducible formulas

Two descriptions of what the laws leave, each by what every node looks like. A
formula is normal if nothing can be flattened, dropped or sorted. It is irreducible
if besides no law applies at any node.
-/

namespace BooleanSteps.Formula

/-- The operands of a node of `c` in a normal formula. -/
structure NormalOperands (c : Connective) (fs : List Formula) : Prop where
  two_le : 2 ≤ fs.length
  not_nested : ∀ f ∈ fs, f.operands? c = none
  not_const : ∀ f ∈ fs, ∀ value, f ≠ .const value
  keys_ne : fs.Pairwise fun f g => f.key ≠ g.key
  sorted : fs.Pairwise fun f g => f.render ≤ g.render

/-- The root is as it is in a normal formula. -/
def NormalNode : Formula → Prop
  | .nary c fs => NormalOperands c fs
  | _ => True

/-- The formula is normal. -/
def IsNormal (f : Formula) : Prop := f.Everywhere NormalNode

/-- The operand `g` of a node of `c` holds a formula that is equivalent to `f`. -/
def HasOperand (c : Connective) (f g : Formula) : Prop :=
  ∃ gs, g = .nary c.dual gs ∧ ∃ h ∈ gs, h.key = f.key

/-- The operands `f` and `g` of a node of `c` have a common operand. -/
def ShareOperand (c : Connective) (f g : Formula) : Prop :=
  ∃ fs, f = .nary c.dual fs ∧ ∃ h ∈ fs, HasOperand c h g

/-- The operands of a node of `c` in an irreducible formula. -/
structure IrreducibleOperands (c : Connective) (fs : List Formula) : Prop
    extends NormalOperands c fs where
  no_complement : ∀ f ∈ fs, ∀ g ∈ fs, g.key ≠ (Formula.not f).key
  no_absorption : fs.Pairwise fun f g => ¬ HasOperand c f g ∧ ¬ HasOperand c g f
  no_distribution : fs.Pairwise fun f g => ¬ ShareOperand c f g

/-- The root is as it is in an irreducible formula. -/
def IrreducibleNode : Formula → Prop
  | .const _ | .var _ => True
  | .not f => (∃ name, f = .var name) ∨ ∃ l r, f = .xor l r
  | .nary c fs => IrreducibleOperands c fs
  | .xor l r => l.key ≠ r.key

/-- The node is no constant. -/
def NoConst (f : Formula) : Prop := ∀ value, f ≠ .const value

/-- The formula is irreducible: a constant, or a formula without constants. -/
def IsIrreducible (f : Formula) : Prop :=
  f.Everywhere IrreducibleNode ∧ ((∃ value, f = .const value) ∨ f.Everywhere NoConst)

end BooleanSteps.Formula
