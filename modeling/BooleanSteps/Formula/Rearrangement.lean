import BooleanSteps.Formula.Basic

/-!
# Rearrangements

One formula is a rearrangement of another if it can be obtained by permuting the
operands of AND and OR, at any depth. Nothing is regrouped, and the operands of
XOR stay in place.
-/

namespace BooleanSteps.Formula

/-- The second formula is a rearrangement of the first. -/
inductive Rearranges : Formula → Formula → Prop
  | refl (f : Formula) : Rearranges f f
  | trans {f g h : Formula} : Rearranges f g → Rearranges g h → Rearranges f h
  | not {f g : Formula} : Rearranges f g → Rearranges (.not f) (.not g)
  | xor {l r l' r' : Formula} : Rearranges l l' → Rearranges r r' →
      Rearranges (.xor l r) (.xor l' r')
  /-- Inside one operand. -/
  | operand (c : Connective) (before after : List Formula) {f g : Formula} :
      Rearranges f g →
      Rearranges (.nary c (before ++ f :: after)) (.nary c (before ++ g :: after))
  /-- The operands in another order. -/
  | perm (c : Connective) {fs gs : List Formula} :
      fs.Perm gs → Rearranges (.nary c fs) (.nary c gs)

theorem Rearranges.symm {f g : Formula} (h : Rearranges f g) : Rearranges g f := by
  induction h with
  | refl f => exact refl f
  | trans _ _ ihf ihg => exact ihg.trans ihf
  | not _ ih => exact not ih
  | xor _ _ ihl ihr => exact xor ihl ihr
  | operand c before after _ ih => exact operand c before after ih
  | perm c h => exact perm c h.symm

end BooleanSteps.Formula
