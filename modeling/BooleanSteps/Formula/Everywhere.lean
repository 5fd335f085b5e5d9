import BooleanSteps.Formula.Basic

/-!
# Properties of every node

A property of nodes holds everywhere in a formula when it holds at the root and
everywhere in the operands. Formulas without XOR are described in this way.
-/

namespace BooleanSteps.Formula

mutual

/-- The property holds at every node of the formula. -/
def Everywhere (p : Formula → Prop) : Formula → Prop
  | .const value => p (.const value)
  | .var name => p (.var name)
  | .not f => p (.not f) ∧ Everywhere p f
  | .nary c fs => p (.nary c fs) ∧ EverywhereAll p fs
  | .xor l r => p (.xor l r) ∧ Everywhere p l ∧ Everywhere p r

/-- The property holds at every node of several formulas. -/
def EverywhereAll (p : Formula → Prop) : List Formula → Prop
  | [] => True
  | f :: fs => Everywhere p f ∧ EverywhereAll p fs

end

variable {p : Formula → Prop}

@[simp] theorem everywhereAll_iff {fs : List Formula} :
    EverywhereAll p fs ↔ ∀ f ∈ fs, Everywhere p f := by
  induction fs with
  | nil => simp [EverywhereAll]
  | cons f fs ih => simp [EverywhereAll, ih]

theorem Everywhere.root {f : Formula} (h : Everywhere p f) : p f := by
  cases f
  case const | var => exact h
  case not | nary | xor => exact h.1

@[simp] theorem everywhere_const {value : Bool} :
    Everywhere p (.const value) ↔ p (.const value) := Iff.rfl

@[simp] theorem everywhere_var {name : String} :
    Everywhere p (.var name) ↔ p (.var name) := Iff.rfl

@[simp] theorem everywhere_not {f : Formula} :
    Everywhere p (.not f) ↔ p (.not f) ∧ Everywhere p f := Iff.rfl

@[simp] theorem everywhere_nary {c : Connective} {fs : List Formula} :
    Everywhere p (.nary c fs) ↔ p (.nary c fs) ∧ ∀ f ∈ fs, Everywhere p f := by
  simp [Everywhere]

@[simp] theorem everywhere_xor {l r : Formula} :
    Everywhere p (.xor l r) ↔ p (.xor l r) ∧ Everywhere p l ∧ Everywhere p r := Iff.rfl

/-- The formula holds no XOR. -/
def XorFree (f : Formula) : Prop := f.Everywhere fun g => ∀ l r, g ≠ .xor l r

end BooleanSteps.Formula
