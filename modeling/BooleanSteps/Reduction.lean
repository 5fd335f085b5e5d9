import BooleanSteps.Derivation
import BooleanSteps.Formula.Key

/-!
# Reduction by laws

At the root of a formula at most one law is applied: the first of a fixed order
whose left side fits. A reduction step does this at every node, the operands
before the node itself, so the law at a node sees operands that are already
reduced.
-/

namespace BooleanSteps

/-- The first answer of `pick` on two elements of the list that stand in this
order; pairs with an earlier first element come first. -/
def firstPair {α β : Type} (pick : α → α → Option β) : List α → Option β
  | [] => none
  | a :: rest =>
      match rest.findSome? (pick a) with
      | some answer => some answer
      | none => firstPair pick rest

namespace Formula

/-! ## Laws at the root -/

/-- The law of negation that applies to `.not f`. -/
def negationLaw? : Formula → Option (Law × Formula)
  | .not f => some (.doubleNegation, f)
  | .nary c fs => some (.deMorgan c, .nary c.dual (fs.map .not))
  | .const value => some (.constantComplement, .const !value)
  | .var _ | .xor _ _ => none

/-- The law of XOR that applies to `.xor l r`. A constant on the right counts
before one on the left, and false before true. -/
def xorLaw? (l r : Formula) : Option (Law × Formula) :=
  if r = .const false then some (.xorIdentity, l)
  else if l = .const false then some (.xorIdentity, r)
  else if r = .const true then some (.xorWithOne, .not l)
  else if l = .const true then some (.xorWithOne, .not r)
  else if l.equivalent r then some (.xorCancellation, .const false)
  else none

/-- The keys of the operands of a node of connective `c`; no keys for any other formula. -/
def operandKeys (c : Connective) (f : Formula) : List String :=
  ((f.operands? c).getD []).map key

/-- The position of the operand of a `c` node that is absorbed: it is a node of
the dual connective and holds another operand. If several operands are held by
others, the first of them counts, and the first that holds it is absorbed. -/
def absorbed? (c : Connective) (fs : List Formula) : Option Nat :=
  let held := fs.map (operandKeys c.dual)
  (fs.map key).zipIdx.findSome? fun (key, i) =>
    held.zipIdx.findSome? fun (keys, j) =>
      if i ≠ j ∧ key ∈ keys then some j else none

/-- The operands of `fs` that are not equivalent to `f`, as one formula. -/
def remainder (c : Connective) (f : Formula) (fs : List Formula) : Formula :=
  collapse c (fs.filter fun g => ¬ f.equivalent g)

/-- Two nodes of the connective dual to `c`, given by their operands, with a common
operand taken out: `(L | P) & (L | Q)` becomes `L | (P & Q)`, and dually. The
common operand is the first of the left node that the right node has too. -/
def factor? (c : Connective) (left right : List Formula) : Option Formula :=
  (left.find? (·.isAmong right)).map fun common =>
    .nary c.dual
      [common, .nary c [remainder c.dual common left, remainder c.dual common right]]

/-- Factors the first two operands of a `c` node that have a common operand. The
factored formula takes the first place, the other operands keep their order. -/
def distributed? (c : Connective) (fs : List Formula) : Option Formula :=
  let candidates := fs.zipIdx.filterMap fun (f, i) => (f.operands? c.dual).map (i, ·)
  firstPair
    (fun (i, left) (j, right) => (factor? c left right).map fun factored =>
      collapse c (factored :: (fs.eraseIdx j).eraseIdx i))
    candidates

/-- The law that applies to `.nary c fs`. -/
def connectiveLaw? (c : Connective) (fs : List Formula) : Option (Law × Formula) :=
  if .const c.neutral ∈ fs then
    some (.identity c, collapse c (fs.filter (· ≠ .const c.neutral)))
  else if .const c.absorbing ∈ fs then some (.annulment c, .const c.absorbing)
  else if (distinct fs).length ≠ fs.length then some (.idempotence c, .nary c (distinct fs))
  else if hasComplement fs then some (.complement c, .const c.absorbing)
  else
    match absorbed? c fs with
    | some i => some (.absorption c, collapse c (fs.eraseIdx i))
    | none => (distributed? c fs).map (.distribution c, ·)

/-- The law that applies at the root of a formula, and what it makes of it. -/
def rootLaw? : Formula → Option (Law × Formula)
  | .const _ | .var _ => none
  | .not f => f.negationLaw?
  | .nary c fs => connectiveLaw? c fs
  | .xor l r => xorLaw? l r

/-- The formula reduced at its root, or unchanged if no law applies there. -/
def reduceRoot (f : Formula) : Derived Formula :=
  match f.rootLaw? with
  | some (law, g) => .applying law f g
  | none => pure f

/-! ## A step at every node -/

mutual

/-- One reduction step with the laws it applies. -/
def stepDerived : Formula → Derived Formula
  | .const value => pure (.const value)
  | .var name => pure (.var name)
  | .not f => do
      let operand ← f.stepDerived
      reduceRoot (.not operand)
  | .nary c fs => do
      let operands ← stepAll fs
      reduceRoot (.nary c operands)
  | .xor l r => do
      let left ← l.stepDerived
      let right ← r.stepDerived
      reduceRoot (.xor left right)

/-- One reduction step of several formulas, one after the other. -/
def stepAll : List Formula → Derived (List Formula)
  | [] => pure []
  | f :: fs => do
      let first ← f.stepDerived
      let others ← stepAll fs
      pure (first :: others)

end

/-- The formula with at most one law applied at every node, operands first. -/
def step (f : Formula) : Formula := f.stepDerived.value

@[simp] theorem value_stepAll (fs : List Formula) : (stepAll fs).value = fs.map step := by
  induction fs with
  | nil => rfl
  | cons f fs ih => simp [stepAll, ih, step]

@[simp] theorem applications_stepAll (fs : List Formula) :
    (stepAll fs).applications = fs.flatMap (·.stepDerived.applications) := by
  induction fs with
  | nil => rfl
  | cons f fs ih => simp [stepAll, ih]

@[simp] theorem step_const (value : Bool) : step (.const value) = .const value := rfl

@[simp] theorem step_var (name : String) : step (.var name) = .var name := rfl

@[simp] theorem step_not (f : Formula) : step (.not f) = (reduceRoot (.not f.step)).value := rfl

theorem step_nary (c : Connective) (fs : List Formula) :
    step (.nary c fs) = (reduceRoot (.nary c (fs.map step))).value := by
  simp [step, stepDerived]

@[simp] theorem step_xor (l r : Formula) :
    step (.xor l r) = (reduceRoot (.xor l.step r.step)).value := rfl

end Formula

end BooleanSteps
