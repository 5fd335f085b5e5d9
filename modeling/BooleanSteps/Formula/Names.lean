import BooleanSteps.Formula.Context
import BooleanSteps.Token.Cut

/-!
# Formulas that can be written

A variable may have any text as its name. Only formulas whose variables have names
of the kind that texts are cut into can be printed and read again.
-/

namespace BooleanSteps.Formula

/-- Every variable has a name that can be written. -/
def IsWritable (f : Formula) : Prop := ∀ name ∈ f.names, Token.IsName name.toList

instance (f : Formula) : Decidable f.IsWritable :=
  inferInstanceAs (Decidable (∀ name ∈ f.names, Token.IsName name.toList))

@[simp] theorem isWritable_const (value : Bool) : IsWritable (.const value) := by
  simp [IsWritable, names]

@[simp] theorem isWritable_var {name : String} :
    IsWritable (.var name) ↔ Token.IsName name.toList := by
  simp [IsWritable, names]

@[simp] theorem isWritable_not {f : Formula} : IsWritable (.not f) ↔ f.IsWritable := Iff.rfl

@[simp] theorem isWritable_nary {c : Connective} {fs : List Formula} :
    IsWritable (.nary c fs) ↔ ∀ f ∈ fs, f.IsWritable := by
  simp only [IsWritable, names_nary, List.mem_flatMap]
  constructor
  · intro h f hf name hname
    exact h name ⟨f, hf, hname⟩
  · rintro h name ⟨f, hf, hname⟩
    exact h f hf name hname

@[simp] theorem isWritable_xor {l r : Formula} :
    IsWritable (.xor l r) ↔ l.IsWritable ∧ r.IsWritable := by
  simp [IsWritable, names, or_imp, forall_and]

/-! ## Contexts -/

/-- Every variable around the hole has a name that can be written. -/
def Context.IsWritable : Context → Prop
  | hole => True
  | not inner => inner.IsWritable
  | nary _ before inner after =>
      (∀ f ∈ before, f.IsWritable) ∧ inner.IsWritable ∧ ∀ f ∈ after, f.IsWritable
  | xorLeft inner right => inner.IsWritable ∧ right.IsWritable
  | xorRight left inner => left.IsWritable ∧ inner.IsWritable

theorem Context.IsWritable.fill {place : Context} (hplace : place.IsWritable) {f : Formula}
    (hf : f.IsWritable) : (place.fill f).IsWritable := by
  induction place with
  | hole => exact hf
  | not inner ih => exact isWritable_not.mpr (ih hplace)
  | nary c before inner after ih =>
      obtain ⟨hbefore, hinner, hafter⟩ := hplace
      refine isWritable_nary.mpr (List.forall_mem_append.mpr ⟨hbefore, ?_⟩)
      exact List.forall_mem_cons.mpr ⟨ih hinner, hafter⟩
  | xorLeft inner right ih => exact isWritable_xor.mpr ⟨ih hplace.1, hplace.2⟩
  | xorRight left inner ih => exact isWritable_xor.mpr ⟨hplace.1, ih hplace.2⟩

theorem Context.IsWritable.comp {outer inner : Context} (houter : outer.IsWritable)
    (hinner : inner.IsWritable) : (outer.comp inner).IsWritable := by
  induction outer with
  | hole => exact hinner
  | not outer ih => exact ih houter
  | nary c before outer after ih => exact ⟨houter.1, ih houter.2.1, houter.2.2⟩
  | xorLeft outer right ih => exact ⟨ih houter.1, houter.2⟩
  | xorRight left outer ih => exact ⟨houter.1, ih houter.2⟩

end BooleanSteps.Formula
