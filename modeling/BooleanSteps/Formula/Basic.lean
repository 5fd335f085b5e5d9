import BooleanSteps.Connective

/-!
# Formulas

A propositional formula over named variables. AND and OR take a list of
operands of any length, XOR exactly two. The functions that build nodes of a
connective come in three strengths: `nary` keeps the operands as they are,
`collapse` leaves no node with fewer than two of them, and `join` also takes in
the operands of operands of the same connective.
-/

namespace BooleanSteps

/-- A propositional formula. -/
inductive Formula where
  | const (value : Bool)
  | var (name : String)
  | not (operand : Formula)
  | nary (connective : Connective) (operands : List Formula)
  | xor (left right : Formula)
deriving Inhabited

namespace Formula

/-- Induction over a formula in which the operands of a connective are taken together. -/
@[induction_eliminator, elab_as_elim]
theorem induction {motive : Formula → Prop} (const : ∀ value, motive (.const value))
    (var : ∀ name, motive (.var name)) (not : ∀ f, motive f → motive (.not f))
    (nary : ∀ c fs, (∀ f ∈ fs, motive f) → motive (.nary c fs))
    (xor : ∀ l r, motive l → motive r → motive (.xor l r)) (f : Formula) : motive f :=
  Formula.rec (motive_1 := motive) (motive_2 := fun fs => ∀ f ∈ fs, motive f)
    const var not nary xor (by simp)
    (fun _ _ hhead htail => by
      intro f hf
      rcases List.mem_cons.mp hf with rfl | hf
      · exact hhead
      · exact htail f hf) f

/-! ## Equality -/

mutual

/-- Whether two formulas are the same tree. -/
def same : Formula → Formula → Bool
  | .const a, .const b => a == b
  | .var a, .var b => a == b
  | .not f, .not g => same f g
  | .nary c fs, .nary d gs => c == d && sameAll fs gs
  | .xor l r, .xor l' r' => same l l' && same r r'
  | _, _ => false

/-- Whether two lists hold the same trees in the same order. -/
def sameAll : List Formula → List Formula → Bool
  | [], [] => true
  | f :: fs, g :: gs => same f g && sameAll fs gs
  | _, _ => false

end

theorem sameAll_iff_eq {fs gs : List Formula}
    (h : ∀ f ∈ fs, ∀ g, same f g = true ↔ f = g) : sameAll fs gs = true ↔ fs = gs := by
  induction fs generalizing gs with
  | nil => cases gs <;> simp [sameAll]
  | cons f fs ih =>
      cases gs with
      | nil => simp [sameAll]
      | cons g gs =>
          simp [sameAll, h f List.mem_cons_self g,
            ih fun f hf => h f (List.mem_cons_of_mem _ hf)]

theorem same_iff_eq (f g : Formula) : same f g = true ↔ f = g := by
  induction f generalizing g with
  | const a => cases g <;> simp [same]
  | var a => cases g <;> simp [same]
  | not f ih => cases g <;> simp [same, ih]
  | nary c fs ih => cases g <;> simp [same, sameAll_iff_eq ih]
  | xor l r ihl ihr => cases g <;> simp [same, ihl, ihr]

instance : DecidableEq Formula := fun f g => decidable_of_iff _ (same_iff_eq f g)

/-! ## Size and variables -/

mutual

/-- The number of nodes, the formula itself included. -/
def nodeCount : Formula → Nat
  | .const _ | .var _ => 1
  | .not f => 1 + f.nodeCount
  | .nary _ fs => 1 + nodeCounts fs
  | .xor l r => 1 + (l.nodeCount + r.nodeCount)

/-- The number of nodes of several formulas together. -/
def nodeCounts : List Formula → Nat
  | [] => 0
  | f :: fs => f.nodeCount + nodeCounts fs

end

mutual

/-- The names of the variables in reading order, once for each occurrence. -/
def names : Formula → List String
  | .const _ => []
  | .var name => [name]
  | .not f => f.names
  | .nary _ fs => namesAll fs
  | .xor l r => l.names ++ r.names

/-- The names in several formulas, one formula after the other. -/
def namesAll : List Formula → List String
  | [] => []
  | f :: fs => f.names ++ namesAll fs

end

@[simp] theorem namesAll_eq (fs : List Formula) : namesAll fs = fs.flatMap names := by
  induction fs with
  | nil => rfl
  | cons f fs ih => simp [namesAll, ih]

@[simp] theorem names_nary (c : Connective) (fs : List Formula) :
    names (.nary c fs) = fs.flatMap names := by
  simp [names]

/-- The variables in order of first appearance. -/
def vars (f : Formula) : List String := f.names.eraseDups

@[simp] theorem mem_vars {f : Formula} {name : String} :
    name ∈ f.vars ↔ name ∈ f.names := by
  simp [vars]

/-! ## Operands of a connective -/

/-- The operands of a node of connective `c`, if the formula is one. -/
def operands? (c : Connective) : Formula → Option (List Formula)
  | .nary d fs => if d = c then some fs else none
  | _ => none

/-- What the formula contributes to a node of connective `c` that takes in
nodes of its own kind: its operands if it is one, else itself. -/
def splice (c : Connective) (f : Formula) : List Formula :=
  (f.operands? c).getD [f]

/-- A node of connective `c`, but no node for fewer than two operands. -/
def collapse (c : Connective) : List Formula → Formula
  | [] => .const c.neutral
  | [f] => f
  | fs => .nary c fs

/-- A chain of operands written with `c` between them: a single operand stands
for itself, and operands that are nodes of `c` are taken in. -/
def join (c : Connective) : List Formula → Formula
  | [f] => f
  | fs => .nary c (fs.flatMap (splice c))

@[simp] theorem operands?_eq_some_iff {c : Connective} {f : Formula} {fs : List Formula} :
    f.operands? c = some fs ↔ f = .nary c fs := by
  cases f <;> simp [operands?]

@[simp] theorem operands?_nary (c : Connective) (fs : List Formula) :
    operands? c (.nary c fs) = some fs := by simp

@[simp] theorem splice_nary (c : Connective) (fs : List Formula) :
    splice c (.nary c fs) = fs := by simp [splice]

end Formula

end BooleanSteps
