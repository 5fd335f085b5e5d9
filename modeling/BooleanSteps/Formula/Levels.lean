import BooleanSteps.Formula.Printer

/-!
# Levels of a printed formula

A token of a printed formula stands at a level: the parentheses around it, the negations
before its operand and the `^` before it in the chains around it are counted. How many
levels the whole text opens can be read off the formula, since the place of a node decides
about its parentheses, and a chain of `^` is a node with its left operand.
-/

namespace BooleanSteps.Formula

/-- The number of `^` in the chain that the formula is printed as. -/
def links : Formula → Nat
  | .xor l _ => l.links + 1
  | _ => 0

/-- The levels of a formula in a place that requires a precedence, by those of its text. -/
def encloseLevels (required : Nat) (f : Formula) (levels : Nat) : Nat :=
  if f.precedence < required then levels + 1 else levels

mutual

/-- The most levels that are open at once in the printed formula. -/
def levels : Formula → Nat
  | .const _ | .var _ => 0
  | .not f => encloseLevels 4 f f.levels + 1
  | .nary c fs => levelsAll c.precedence fs
  | .xor l r => max (encloseLevels 2 l l.levels) (l.links + 1 + encloseLevels 3 r r.levels)

/-- The most levels that are open at once in one of several formulas, in places that
require the same precedence. -/
def levelsAll (required : Nat) : List Formula → Nat
  | [] => 0
  | f :: fs => max (encloseLevels required f f.levels) (levelsAll required fs)

end

theorem levelsAll_le_iff {required n : Nat} {fs : List Formula} :
    levelsAll required fs ≤ n ↔ ∀ f ∈ fs, encloseLevels required f f.levels ≤ n := by
  induction fs with
  | nil => simp [levelsAll]
  | cons f fs ih => rw [levelsAll, Nat.max_le, ih, List.forall_mem_cons]

theorem lt_levelsAll_iff {required n : Nat} {fs : List Formula} :
    n < levelsAll required fs ↔ ∃ f ∈ fs, n < encloseLevels required f f.levels := by
  rw [← Nat.not_le, levelsAll_le_iff]
  simp only [Classical.not_forall, Nat.not_le, exists_prop]

theorem encloseLevels_le_levelsAll (required : Nat) {f : Formula} {fs : List Formula}
    (h : f ∈ fs) : encloseLevels required f f.levels ≤ levelsAll required fs :=
  levelsAll_le_iff.mp (Nat.le_refl _) f h

theorem le_encloseLevels (required : Nat) (f : Formula) (levels : Nat) :
    levels ≤ f.encloseLevels required levels := by
  unfold encloseLevels
  split <;> omega

theorem links_eq_zero {f : Formula} (h : f.precedence ≠ 2) : f.links = 0 := by
  cases f with
  | xor l r => exact absurd rfl h
  | const | var | not | nary => rfl

/-- Where a chain of `^` may go on, anything else stands as one of its operands. -/
theorem encloseLevels_two {f : Formula} (h : f.precedence ≠ 2) (levels : Nat) :
    f.encloseLevels 2 levels = f.encloseLevels 3 levels := by
  unfold encloseLevels
  simp only [show f.precedence < 2 ↔ f.precedence < 3 by omega]

/-- Every `^` of a chain is a level for what follows it. -/
theorem links_le_levels (f : Formula) : f.links ≤ f.levels := by
  cases f with
  | xor l r =>
      rw [links, levels]
      omega
  | const | var | not | nary => exact Nat.zero_le _

end BooleanSteps.Formula
