import BooleanSteps.Digit
import BooleanSteps.Formula.Basic

/-!
# Equality up to order

The key of a formula is a text that does not depend on the order of the operands
of AND and OR: the keys of the operands are sorted before they are written. Two
formulas are equivalent when their keys are the same text, and the laws that
compare operands compare them in this sense.
-/

namespace BooleanSteps

/-- The word that opens the key of a connective. -/
def Connective.keyword : Connective → String
  | and => "AND"
  | or => "OR"

namespace Formula

/-- Texts in the order of their characters' code points. -/
def sortTexts (texts : List String) : List String :=
  texts.mergeSort fun a b => decide (a ≤ b)

theorem sorted_sortTexts (texts : List String) : (sortTexts texts).Pairwise (· ≤ ·) := by
  have h : (sortTexts texts).Pairwise fun a b => decide (a ≤ b) = true :=
    List.pairwise_mergeSort (by simpa using fun _ _ _ => String.le_trans)
      (by simpa using String.le_total) texts
  simpa using h

/-- Sorting forgets the order of the texts. -/
theorem sortTexts_perm {texts others : List String} (h : texts.Perm others) :
    sortTexts texts = sortTexts others := by
  refine List.Perm.eq_of_pairwise ?_ (sorted_sortTexts texts) (sorted_sortTexts others) ?_
  · exact fun _ _ _ _ => String.le_antisymm
  · exact ((List.mergeSort_perm _ _).trans h).trans (List.mergeSort_perm _ _).symm

mutual

/-- The text that stands for the formula regardless of the order of its operands. -/
def key : Formula → String
  | .const value => "CONST(" ++ digit value ++ ")"
  | .var name => "VAR(" ++ name ++ ")"
  | .not f => "NOT(" ++ f.key ++ ")"
  | .nary c fs => c.keyword ++ "(" ++ ",".intercalate (sortTexts (keys fs)) ++ ")"
  | .xor l r => "XOR(" ++ l.key ++ "," ++ r.key ++ ")"

/-- The keys of several formulas. -/
def keys : List Formula → List String
  | [] => []
  | f :: fs => f.key :: keys fs

end

@[simp] theorem keys_eq_map (fs : List Formula) : keys fs = fs.map key := by
  induction fs with
  | nil => rfl
  | cons f fs ih => simp [keys, ih]

theorem key_nary (c : Connective) (fs : List Formula) :
    key (.nary c fs) =
      c.keyword ++ "(" ++ ",".intercalate (sortTexts (fs.map key)) ++ ")" := by
  simp [key]

/-- The key does not depend on the order of operands. -/
theorem key_nary_perm (c : Connective) {fs gs : List Formula} (h : fs.Perm gs) :
    key (.nary c fs) = key (.nary c gs) := by
  rw [key_nary, key_nary, sortTexts_perm (h.map key)]

/-- Whether two formulas are the same up to the order of operands of AND and OR. -/
def equivalent (f g : Formula) : Bool := f.key == g.key

@[simp] theorem equivalent_iff {f g : Formula} : f.equivalent g = true ↔ f.key = g.key := by
  simp [equivalent]

/-- Whether some formula of the list is equivalent to `f`. -/
def isAmong (f : Formula) (fs : List Formula) : Bool :=
  let sought := f.key
  fs.any fun g => g.key == sought

@[simp] theorem isAmong_iff {f : Formula} {fs : List Formula} :
    f.isAmong fs = true ↔ ∃ g ∈ fs, g.key = f.key := by
  simp [isAmong]

/-- The first formula of every group of equivalent ones, in order. -/
def distinct (fs : List Formula) : List Formula :=
  ((fs.map fun f => (f.key, f)).eraseDupsBy fun a b => a.1 == b.1).map Prod.snd

@[simp] theorem distinct_nil : distinct [] = [] := rfl

/-- The first formula stays, and all that are equivalent to it go. -/
theorem distinct_cons (f : Formula) (fs : List Formula) :
    distinct (f :: fs) = f :: distinct (fs.filter fun g => !g.equivalent f) := by
  simp only [distinct, List.map_cons, List.eraseDupsBy_cons, List.filter_map]
  congr 4
  apply List.filter_congr
  intro g _
  by_cases h : g.key = f.key <;> simp [equivalent, h]

/-- Whether some formula of the list is the negation of one that is equivalent to
a formula of the list. -/
def hasComplement (fs : List Formula) : Bool :=
  fs.any fun
    | .not f => f.isAmong fs
    | _ => false

end Formula

end BooleanSteps
