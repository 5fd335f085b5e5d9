import BooleanSteps.Interpretation

/-!
# Truth

The truth value of a formula when every variable has a value. All operands count,
in no particular order.
-/

namespace BooleanSteps

namespace Interpretation

/-- The interpretation gives a value to each of the variables. -/
def Binds (i : Interpretation) (names : List String) : Prop :=
  ∀ name ∈ names, (i.value? name).isSome

instance (i : Interpretation) (names : List String) : Decidable (i.Binds names) :=
  inferInstanceAs (Decidable (∀ name ∈ names, (i.value? name).isSome))

/-- The second interpretation keeps the values of the first. -/
def Extends (i j : Interpretation) : Prop :=
  ∀ name value, i.value? name = some value → j.value? name = some value

/-- The assignment that agrees with the interpretation and makes other variables false. -/
def assignment (i : Interpretation) (name : String) : Bool := (i.value? name).getD false

end Interpretation

namespace Formula

mutual

/-- The truth value of the formula under an assignment of all variables. -/
def truth (v : String → Bool) : Formula → Bool
  | .const value => value
  | .var name => v name
  | .not f => !f.truth v
  | .nary .and fs => allTrue v fs
  | .nary .or fs => anyTrue v fs
  | .xor l r => l.truth v != r.truth v

/-- Whether all formulas are true. -/
def allTrue (v : String → Bool) : List Formula → Bool
  | [] => true
  | f :: fs => f.truth v && allTrue v fs

/-- Whether some formula is true. -/
def anyTrue (v : String → Bool) : List Formula → Bool
  | [] => false
  | f :: fs => f.truth v || anyTrue v fs

end

@[simp] theorem allTrue_eq (v : String → Bool) (fs : List Formula) :
    allTrue v fs = fs.all (·.truth v) := by
  induction fs with
  | nil => rfl
  | cons f fs ih => simp [allTrue, ih]

@[simp] theorem anyTrue_eq (v : String → Bool) (fs : List Formula) :
    anyTrue v fs = fs.any (·.truth v) := by
  induction fs with
  | nil => rfl
  | cons f fs ih => simp [anyTrue, ih]

theorem truth_nary (v : String → Bool) (c : Connective) (fs : List Formula) :
    truth v (.nary c fs) =
      if fs.any (fun f => f.truth v == c.absorbing) then c.absorbing else c.neutral := by
  cases c
  · simp only [truth, allTrue_eq, Connective.absorbing, Connective.neutral]
    cases h : fs.all (·.truth v) <;> simp_all
  · simp only [truth, anyTrue_eq, Connective.absorbing, Connective.neutral]
    cases h : fs.any (·.truth v) <;> simp_all

end Formula

end BooleanSteps
