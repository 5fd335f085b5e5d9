import BooleanSteps.Derivation
import BooleanSteps.Formula.Context
import BooleanSteps.Formula.Flat
import BooleanSteps.Formula.Key

/-!
# Explanations

Steps explain how one formula becomes another if they fit together: each replaces
a part of the formula that the steps before it lead to, up to the order and the
grouping of operands of AND and OR, and the last one leads to the other formula.
-/

namespace BooleanSteps

namespace Formula

/-- The formulas differ at most in the order and the grouping of operands. -/
def Alike (f g : Formula) : Prop := f.flat.key = g.flat.key

theorem Alike.refl (f : Formula) : Alike f f := rfl

theorem Alike.symm {f g : Formula} (h : Alike f g) : Alike g f := Eq.symm h

theorem Alike.trans {f g h : Formula} (hfg : Alike f g) (hgh : Alike g h) : Alike f h :=
  Eq.trans hfg hgh

end Formula

/-- The steps lead from the first formula to the second. -/
inductive Explains : Formula → List Step → Formula → Prop
  | done {f g : Formula} : f.Alike g → Explains f [] g
  | step {f g before after : Formula} {law : Law} {steps : List Step}
      (place : Formula.Context) :
      f.Alike (place.fill before) → Explains (place.fill after) steps g →
      Explains f (⟨law, before.render, after.render⟩ :: steps) g

end BooleanSteps
