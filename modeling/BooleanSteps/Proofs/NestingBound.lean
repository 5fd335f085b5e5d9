import BooleanSteps.Formula.Nesting
import BooleanSteps.Proofs.RoundTrip

/-!
# How deep a formula can be that was read

The limit on levels bounds how many negations and XOR nodes stand above each other in a
formula that is read, but it is not the bound. The levels of an operand are free again
behind it, and a chain of `^` that follows is built on top of the operand: with every level
that is left, an operand can be as deep as a whole chain inside parentheses.
-/

namespace BooleanSteps

namespace Formula

/-! ## Nesting of nodes -/

theorem nestingAll_le_iff {n : Nat} {fs : List Formula} :
    nestingAll fs ≤ n ↔ ∀ f ∈ fs, f.nesting ≤ n := by
  induction fs with
  | nil => simp [nestingAll]
  | cons f fs ih => rw [nestingAll, Nat.max_le, ih, List.forall_mem_cons]

theorem nestingAll_append (fs gs : List Formula) :
    nestingAll (fs ++ gs) = max (nestingAll fs) (nestingAll gs) := by
  induction fs with
  | nil => simp [nestingAll]
  | cons f fs ih => simp [nestingAll, ih, Nat.max_assoc]

theorem nestingAll_singleton (f : Formula) : nestingAll [f] = f.nesting := Nat.max_zero _

theorem nestingAll_splice (c : Connective) (f : Formula) :
    nestingAll (splice c f) = f.nesting := by
  rcases splice_eq c f with ⟨heq, -⟩ | ⟨fs, rfl, heq⟩
  · rw [heq, nestingAll_singleton]
  · rw [heq, nesting]

theorem nestingAll_flatMap_splice (c : Connective) (fs : List Formula) :
    nestingAll (fs.flatMap (splice c)) = nestingAll fs := by
  induction fs with
  | nil => rfl
  | cons f fs ih => rw [List.flatMap_cons, nestingAll_append, nestingAll_splice, ih, nestingAll]

theorem nesting_collapse (c : Connective) (fs : List Formula) :
    nesting (collapse c fs) = nestingAll fs := by
  refine collapse_cases c fs ?_ ?_ ?_
  · rintro rfl
    rfl
  · rintro f rfl
    exact (nestingAll_singleton f).symm
  · intro _
    rw [nesting]

theorem nesting_join (c : Connective) (fs : List Formula) :
    nesting (join c fs) = nestingAll fs := by
  match fs with
  | [] => rfl
  | [f] => exact (nestingAll_singleton f).symm
  | f :: g :: fs =>
      rw [join, nesting, nestingAll_flatMap_splice]
      simp

theorem nestingAll_map_flat {fs : List Formula} (h : ∀ f ∈ fs, f.flat.nesting = f.nesting) :
    nestingAll (fs.map flat) = nestingAll fs := by
  induction fs with
  | nil => rfl
  | cons f fs ih =>
      obtain ⟨hf, hfs⟩ := List.forall_mem_cons.mp h
      rw [List.map_cons, nestingAll, nestingAll, hf, ih hfs]

@[simp] theorem nesting_flat (f : Formula) : f.flat.nesting = f.nesting := by
  induction f with
  | const value | var name => rfl
  | not f ih => rw [flat_not, nesting, nesting, ih]
  | nary c fs ih =>
      rw [flat_nary, nesting_collapse, nestingAll_flatMap_splice, nestingAll_map_flat ih, nesting]
  | xor l r ihl ihr => rw [flat_xor, nesting, nesting, ihl, ihr]

/-- The first two operands of a chain are the deepest in it. -/
theorem nesting_foldl_xor_le {phrases : List Phrase} {f : Formula} {n : Nat}
    (hf : f.nesting + phrases.length ≤ n)
    (h : ∀ i (hi : i < phrases.length), phrases[i].2.nesting + (phrases.length - i) ≤ n) :
    nesting (phrases.foldl (fun g p => .xor g p.2) f) ≤ n := by
  induction phrases generalizing f with
  | nil => exact hf
  | cons p phrases ih =>
      have hp : p.2.nesting + (phrases.length + 1) ≤ n := h 0 (Nat.zero_lt_succ _)
      rw [List.length_cons] at hf
      refine ih ?_ fun i hi => ?_
      · rw [nesting]
        omega
      · have hnext := h (i + 1) (Nat.succ_lt_succ hi)
        rw [List.getElem_cons_succ, List.length_cons] at hnext
        omega

end Formula

/-! ## The bound -/

/-- The nesting that an operand of a chain can have where some levels are left. -/
def operandNesting : Nat → Nat
  | 0 => 0
  | left + 1 => operandNesting left + max left 1

/-- The nesting that a phrase can have where some levels are left. -/
def nestingBound : Category → Nat → Nat
  | .primary, 0 => 0
  | .primary, left + 1 => operandNesting left + left
  | .unary, left | .conjunction, left => operandNesting left
  | .exclusive, left | .disjunction, left => operandNesting left + left

theorem nestingBound_primary_le (left : Nat) :
    nestingBound .primary left ≤ nestingBound .unary left := by
  cases left with
  | zero => exact Nat.le_refl 0
  | succ left =>
      rw [nestingBound, nestingBound, operandNesting]
      omega

theorem nestingBound_primary_of_lt {limit level : Nat} (h : level < limit) :
    nestingBound .primary (limit - level) = nestingBound .disjunction (limit - (level + 1)) := by
  obtain ⟨left, rfl⟩ := Nat.exists_eq_add_of_lt h
  rw [show level + left + 1 - level = left + 1 by omega,
    show level + left + 1 - (level + 1) = left by omega]
  rfl

theorem nestingBound_unary_of_lt {limit level : Nat} (h : level < limit) :
    nestingBound .unary (limit - (level + 1)) + 1 ≤ nestingBound .unary (limit - level) := by
  obtain ⟨left, rfl⟩ := Nat.exists_eq_add_of_lt h
  rw [show level + left + 1 - level = left + 1 by omega,
    show level + left + 1 - (level + 1) = left by omega, nestingBound, nestingBound, operandNesting]
  omega

/-- Every level that an operand does not have costs it at least one node. -/
theorem operandNesting_add_le (n left : Nat) :
    operandNesting left + n ≤ operandNesting (left + n) := by
  induction n with
  | zero => exact Nat.le_refl _
  | succ n ih =>
      rw [← Nat.add_assoc left n 1, operandNesting]
      omega

theorem two_mul_operandNesting (n : Nat) :
    2 * operandNesting (n + 1) = n * (n + 1) + 2 := by
  induction n with
  | zero => rfl
  | succ n ih =>
      rw [operandNesting, Nat.mul_add, ih]
      simp only [Nat.mul_add, Nat.add_mul]
      omega

theorem operandNesting_add_self {n : Nat} (h : 0 < n) :
    operandNesting n + n = n * (n + 1) / 2 + 1 := by
  obtain ⟨n, rfl⟩ := Nat.exists_eq_succ_of_ne_zero (Nat.ne_of_gt h)
  have hoperand := two_mul_operandNesting n
  simp only [Nat.succ_eq_add_one, Nat.add_mul, Nat.mul_add] at hoperand ⊢
  omega

variable {limit level : Nat} {category : Category} {tokens : List Token} {f : Formula}

/-- An operand further right has fewer levels, by as many as it stands under fewer nodes. -/
theorem nesting_chain_le {first : Phrase} {others : List Phrase}
    (hlimit : ∀ i, i < others.length → level + i < limit)
    (h : ∀ i (hi : i < (first :: others).length),
      (first :: others)[i].2.nesting ≤ operandNesting (limit - (level + i))) :
    Formula.nesting (others.foldl (fun f p => .xor f p.2) first.2) ≤
      operandNesting (limit - level) + (limit - level) := by
  have hlength : others.length ≤ limit - level := by
    rcases Nat.eq_zero_or_pos others.length with hzero | hpos
    · omega
    · have hlast := hlimit (others.length - 1) (by omega)
      omega
  have hfirst : first.2.nesting ≤ operandNesting (limit - level) := h 0 (Nat.zero_lt_succ _)
  refine Formula.nesting_foldl_xor_le (by omega) fun i hi => ?_
  have hoperand : others[i].2.nesting ≤ operandNesting (limit - (level + (i + 1))) :=
    h (i + 1) (Nat.succ_lt_succ hi)
  have hfewer := operandNesting_add_le (i + 1) (limit - (level + (i + 1)))
  have hlt := hlimit i hi
  have heq : limit - (level + (i + 1)) + (i + 1) = limit - level := by omega
  rw [heq] at hfewer
  omega

theorem Derives.nesting_le (h : Derives limit category level tokens f) :
    f.nesting ≤ nestingBound category (limit - level) := by
  induction h with
  | var level name => exact Nat.zero_le _
  | const level value => exact Nat.zero_le _
  | paren hlevel _ ih =>
      rw [nestingBound_primary_of_lt hlevel]
      exact ih
  | primary _ ih => exact Nat.le_trans ih (nestingBound_primary_le _)
  | not hlevel _ ih =>
      rw [Formula.nesting]
      exact Nat.le_trans (Nat.succ_le_succ ih) (nestingBound_unary_of_lt hlevel)
  | conjunction phrases _ _ ih | disjunction phrases _ _ ih =>
      rw [Formula.nesting_join, Formula.nestingAll_le_iff]
      exact List.forall_mem_map.mpr ih
  | exclusive first others hlimit _ ih => exact nesting_chain_le hlimit ih

namespace Formula

/-! ## Formulas as deep as the bound -/

/-- A formula that takes a number of levels as an operand of a chain and is as deep as such
an operand can be. -/
def deepOperand : Nat → Formula
  | 0 => .var "A"
  | 1 => .not (.var "A")
  | n + 2 => .nary .and [linked (n + 1) (deepOperand (n + 1))]

theorem nesting_linked (n : Nat) (f : Formula) : (linked n f).nesting = f.nesting + n := by
  induction n with
  | zero => rfl
  | succ n ih =>
      rw [linked, nesting, ih, nesting]
      omega

theorem nesting_deepOperand (n : Nat) : (deepOperand n).nesting = operandNesting n := by
  induction n using deepOperand.induct with
  | case1 | case2 => rfl
  | case3 n ih =>
      have hstep : operandNesting (n + 2) = operandNesting (n + 1) + max (n + 1) 1 := rfl
      rw [deepOperand, nesting, nestingAll_singleton, nesting_linked, ih, hstep]
      omega

theorem links_deepOperand (n : Nat) : (deepOperand n).links = 0 := by
  match n with
  | 0 | 1 | n + 2 => rfl

theorem encloseLevels_deepOperand (n : Nat) :
    (deepOperand n).encloseLevels 2 (deepOperand n).levels = n := by
  induction n using deepOperand.induct with
  | case1 | case2 => rfl
  | case3 n ih =>
      have hlinked : (linked (n + 1) (deepOperand (n + 1))).levels = max (n + 1) (0 + (n + 1)) := by
        have hlevels := encloseLevels_linked (n + 1) (deepOperand (n + 1))
        rw [ih, links_deepOperand] at hlevels
        exact hlevels
      have hgroup : (deepOperand (n + 2)).encloseLevels 2 (deepOperand (n + 2)).levels =
          max ((linked (n + 1) (deepOperand (n + 1))).levels + 1) 0 := rfl
      rw [hgroup, hlinked]
      omega

theorem isWritable_deepOperand (n : Nat) : (deepOperand n).IsWritable := by
  induction n using deepOperand.induct with
  | case1 | case2 => decide
  | case3 n ih =>
      rw [deepOperand, isWritable_nary, List.forall_mem_singleton]
      exact ih.linked (n + 1)

/-- Between the nesting of one operand and that of the next, a chain fills the gap. -/
theorem exists_eq_operandNesting_add {limit n : Nat} (h : n ≤ operandNesting limit + limit) :
    ∃ left links, links ≤ left ∧ left ≤ limit ∧ n = operandNesting left + links := by
  induction limit with
  | zero => exact ⟨0, 0, Nat.le_refl 0, Nat.le_refl 0, Nat.le_zero.mp h⟩
  | succ limit ih =>
      have hstep : operandNesting (limit + 1) = operandNesting limit + max limit 1 := rfl
      rcases Nat.lt_or_ge n (operandNesting (limit + 1)) with hlt | hge
      · obtain ⟨left, links, hlinks, hleft, heq⟩ := ih (by omega)
        exact ⟨left, links, hlinks, Nat.le_succ_of_le hleft, heq⟩
      · exact ⟨limit + 1, n - operandNesting (limit + 1), by omega, Nat.le_refl _, by omega⟩

theorem exists_parse_nesting_eq {n : Nat} (h : n ≤ operandNesting maxDepth + maxDepth) :
    ∃ text f, parse text = .ok f ∧ f.nesting = n := by
  obtain ⟨left, links, hlinks, hleft, rfl⟩ := exists_eq_operandNesting_add h
  let f : Formula := linked links (deepOperand left)
  have hf : f.IsWritable := (isWritable_deepOperand left).linked links
  have hlevels : f.levels ≤ maxDepth := by
    have hlevels : f.encloseLevels 2 f.levels = max left (0 + links) := by
      rw [encloseLevels_linked, encloseLevels_deepOperand, links_deepOperand]
    have hle := le_encloseLevels 2 f f.levels
    omega
  refine ⟨f.render, f.flat, parse_render_of_le hf hlevels, ?_⟩
  rw [nesting_flat, nesting_linked, nesting_deepOperand]

/-- The formulas that can be read nest negations and XOR nodes up to a depth that is
quadratic in the number of levels, and every depth up to it occurs. -/
theorem exists_parse_nesting_iff (n : Nat) :
    (∃ text f, parse text = .ok f ∧ f.nesting = n) ↔ n ≤ maxDepth * (maxDepth + 1) / 2 + 1 := by
  rw [← operandNesting_add_self (show 0 < maxDepth by decide)]
  constructor
  · rintro ⟨text, f, hparse, rfl⟩
    obtain ⟨tokens, -, hderives⟩ := exists_derives_of_parse hparse
    have hle := hderives.nesting_le
    rwa [nestingBound, Nat.sub_zero] at hle
  · exact exists_parse_nesting_eq

/-! ## Negations before a chain -/

variable {f : Formula}

theorem nesting_negated (n : Nat) (f : Formula) : (negated n f).nesting = f.nesting + n := by
  induction n with
  | zero => rfl
  | succ n ih => rw [negated, nesting, ih, Nat.add_assoc]

theorem flat_negated (n : Nat) (f : Formula) : (negated n f).flat = negated n f.flat := by
  induction n with
  | zero => rfl
  | succ n ih => rw [negated, flat_not, ih, negated]

theorem IsWritable.negated (n : Nat) (hf : f.IsWritable) : (negated n f).IsWritable := by
  induction n with
  | zero => exact hf
  | succ n ih => exact isWritable_not.mpr ih

theorem four_le_precedence_negated (n : Nat) (h : 4 ≤ f.precedence) :
    4 ≤ (Formula.negated n f).precedence := by
  cases n with
  | zero => exact h
  | succ n => exact Nat.le_refl 4

theorem levels_negated (n : Nat) (h : 4 ≤ f.precedence) :
    (Formula.negated n f).levels = f.levels + n := by
  induction n with
  | zero => rfl
  | succ n ih =>
      have hplain : ¬(Formula.negated n f).precedence < 4 :=
        Nat.not_lt.mpr (four_le_precedence_negated n h)
      rw [Formula.negated, levels, encloseLevels, if_neg hplain, ih, Nat.add_assoc]

theorem render_negated (n : Nat) (h : 4 ≤ f.precedence) :
    (Formula.negated n f).render = String.join (List.replicate n "~") ++ f.render := by
  induction n generalizing f with
  | zero => simp [Formula.negated, String.join]
  | succ n ih =>
      have hplain : ¬f.precedence < 4 := Nat.not_lt.mpr h
      rw [Formula.negated, ← negated_not, ih (f := .not f) (Nat.le_refl 4), join_replicate_succ,
        render_not, enclose, if_neg hplain, String.append_assoc]

/-- After 256 negations no level is left, but behind their operand all are again. -/
theorem parse_negations_before_xor :
    parse (String.join (List.replicate 256 "~") ++ "A ^ B") =
        .ok (.xor (negated 256 (.var "A")) (.var "B")) ∧
      maxDepth < nesting (.xor (negated 256 (.var "A")) (.var "B")) := by
  let f : Formula := .xor (negated 256 (.var "A")) (.var "B")
  have hprecedence := four_le_precedence_negated (f := .var "A") 256 (by decide)
  constructor
  · have hvar : IsWritable (.var "A") := by decide
    have hf : f.IsWritable := isWritable_xor.mpr ⟨hvar.negated 256, by decide⟩
    have hplain : ¬(negated 256 (.var "A")).precedence < 2 := by omega
    have hlevels : f.levels ≤ maxDepth := by
      rw [levels, encloseLevels, if_neg hplain, levels_negated 256 (by decide),
        links_eq_zero (by omega)]
      decide
    have hrender : f.render = String.join (List.replicate 256 "~") ++ "A ^ B" := by
      rw [render_xor, enclose, if_neg hplain, render_negated 256 (by decide), String.append_assoc,
        String.append_assoc]
      rfl
    have hflat : f.flat = f := by
      rw [flat_xor, flat_negated, flat_var, flat_var]
    have hparse := parse_render_of_le hf hlevels
    rwa [hrender, hflat] at hparse
  · rw [nesting, nesting_negated]
    decide

end Formula

end BooleanSteps
