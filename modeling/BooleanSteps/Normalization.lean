import BooleanSteps.Derivation
import BooleanSteps.Formula.Key

/-!
# Normalization

Normalizing a formula takes nested nodes of one connective together, decides or
drops constants, keeps one of equivalent operands and sorts the operands by their
printed text, from the leaves up. Removing a constant or a repeated operand
applies a law; grouping and order do not.
-/

namespace BooleanSteps

namespace Formula

/-- Formulas in the order of their printed texts; formulas of one text keep their order. -/
def sortOperands (fs : List Formula) : List Formula :=
  fs.mergeSort fun f g => decide (f.render ≤ g.render)

/-- The normal form of a node of `c` whose operands are already normal and hold no
node of `c`. -/
def normalizeNode (c : Connective) (fs : List Formula) : Derived Formula :=
  if .const c.absorbing ∈ fs then
    .applying (.annulment c) (.nary c fs) (.const c.absorbing)
  else
    let proper := fs.filter (· ≠ .const c.neutral)
    let unique := distinct proper
    let identity : List Application :=
      if proper.length = fs.length then [] else [⟨.identity c, .nary c fs, collapse c proper⟩]
    let idempotence : List Application :=
      if unique.length = proper.length then []
      else [⟨.idempotence c, .nary c proper, collapse c unique⟩]
    ⟨collapse c (sortOperands unique), identity ++ idempotence⟩

mutual

/-- Normalization with the laws it applies. -/
def normalizeDerived : Formula → Derived Formula
  | .const value => pure (.const value)
  | .var name => pure (.var name)
  | .not f => .not <$> f.normalizeDerived
  | .nary c fs => do
      let operands ← normalizeAll fs
      normalizeNode c (operands.flatMap (splice c))
  | .xor l r => do
      let left ← l.normalizeDerived
      let right ← r.normalizeDerived
      pure (.xor left right)

/-- Normalization of several formulas, one after the other. -/
def normalizeAll : List Formula → Derived (List Formula)
  | [] => pure []
  | f :: fs => do
      let first ← f.normalizeDerived
      let others ← normalizeAll fs
      pure (first :: others)

end

/-- The normal form of a formula. -/
def normalize (f : Formula) : Formula := f.normalizeDerived.value

@[simp] theorem value_normalizeAll (fs : List Formula) :
    (normalizeAll fs).value = fs.map normalize := by
  induction fs with
  | nil => rfl
  | cons f fs ih => simp [normalizeAll, ih, normalize]

@[simp] theorem applications_normalizeAll (fs : List Formula) :
    (normalizeAll fs).applications = fs.flatMap (·.normalizeDerived.applications) := by
  induction fs with
  | nil => rfl
  | cons f fs ih => simp [normalizeAll, ih]

@[simp] theorem normalize_const (value : Bool) :
    normalize (.const value) = .const value := rfl

@[simp] theorem normalize_var (name : String) : normalize (.var name) = .var name := rfl

@[simp] theorem normalize_not (f : Formula) : normalize (.not f) = .not f.normalize := rfl

theorem normalize_nary (c : Connective) (fs : List Formula) :
    normalize (.nary c fs) =
      (normalizeNode c ((fs.map normalize).flatMap (splice c))).value := by
  simp [normalize, normalizeDerived]

@[simp] theorem normalize_xor (l r : Formula) :
    normalize (.xor l r) = .xor l.normalize r.normalize := rfl

end Formula

end BooleanSteps
