import BooleanSteps.Derivation

/-!
# Duality

The dual of a formula exchanges AND with OR and true with false at every depth. It
is meant for formulas without XOR, whose dual is not a formula of this kind.
-/

namespace BooleanSteps

namespace Formula

mutual

/-- The dual formula. -/
def dual : Formula → Formula
  | .const value => .const !value
  | .var name => .var name
  | .not f => .not f.dual
  | .nary c fs => .nary c.dual (dualAll fs)
  | .xor l r => .xor l.dual r.dual

/-- Several formulas, each dualized. -/
def dualAll : List Formula → List Formula
  | [] => []
  | f :: fs => f.dual :: dualAll fs

end

@[simp] theorem dualAll_eq_map (fs : List Formula) : dualAll fs = fs.map dual := by
  induction fs with
  | nil => rfl
  | cons f fs ih => simp [dualAll, ih]

@[simp] theorem dual_const (value : Bool) : dual (.const value) = .const !value := rfl

@[simp] theorem dual_var (name : String) : dual (.var name) = .var name := rfl

@[simp] theorem dual_not (f : Formula) : dual (.not f) = .not f.dual := rfl

@[simp] theorem dual_nary (c : Connective) (fs : List Formula) :
    dual (.nary c fs) = .nary c.dual (fs.map dual) := by
  simp [dual]

@[simp] theorem dual_xor (l r : Formula) : dual (.xor l r) = .xor l.dual r.dual := rfl

@[simp] theorem dual_dual (f : Formula) : f.dual.dual = f := by
  induction f with
  | const value => simp
  | var name => rfl
  | not f ih => simp [ih]
  | nary c fs ih =>
      have hmap : fs.map (dual ∘ dual) = fs.map id :=
        List.map_congr_left fun f hf => ih f hf
      simp [hmap]
  | xor l r ihl ihr => simp [ihl, ihr]

end Formula

/-- The application of the dual law to the dual formula. -/
def Application.dual (a : Application) : Application :=
  ⟨a.law.dual, a.before.dual, a.after.dual⟩

end BooleanSteps
