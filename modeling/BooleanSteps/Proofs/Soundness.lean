import BooleanSteps.Proofs.Meaning
import BooleanSteps.Proofs.Occurrences

/-!
# Simplification is sound

Every law keeps the truth value of a formula that can be written, and so do
normalization, a reduction step and any number of passes. As no variable is brought in, an
interpretation that gives a value to every variable of the formula evaluates all results
of simplification without failure, and to the same value.
-/

namespace BooleanSteps

/-! ## One law -/

/-- A formula that is not kept is equivalent to one that is. -/
theorem Thins.exists_key_eq {earlier fs gs : List Formula} (h : Thins earlier fs gs)
    {f : Formula} (hf : f ∈ fs) :
    (∃ e ∈ earlier, e.key = f.key) ∨ ∃ g ∈ gs, g.key = f.key := by
  -- A dropped formula joins the earlier ones, but one equivalent to it is there already.
  induction h with
  | nil => exact absurd hf List.not_mem_nil
  | keep head _ ih =>
      rcases List.mem_cons.mp hf with rfl | hf
      · exact .inr ⟨f, List.mem_cons_self, rfl⟩
      · rcases ih hf with ⟨e, he, hkey⟩ | ⟨g, hg, hkey⟩
        · rcases List.mem_cons.mp he with rfl | he
          · exact .inr ⟨e, List.mem_cons_self, hkey⟩
          · exact .inl ⟨e, he, hkey⟩
        · exact .inr ⟨g, List.mem_cons_of_mem _ hg, hkey⟩
  | drop head hseen _ ih =>
      rcases List.mem_cons.mp hf with rfl | hf
      · exact .inl hseen
      · rcases ih hf with ⟨e, he, hkey⟩ | hkept
        · rcases List.mem_cons.mp he with rfl | he
          · obtain ⟨e', he', hkey'⟩ := hseen
            exact .inl ⟨e', he', hkey'.trans hkey⟩
          · exact .inl ⟨e, he, hkey⟩
        · exact .inr hkept

section Laws

open Formula

variable {v : String → Bool} {c : Connective}

theorem Law.truth_eq_of_absorption {before after gs : List Formula} {f g : Formula}
    (hwritable : IsWritable (.nary c (before ++ .nary c.dual gs :: after)))
    (hf : f ∈ before ++ after) (hg : g ∈ gs) (hkey : g.key = f.key) :
    truth v (collapse c (before ++ after)) =
      truth v (.nary c (before ++ .nary c.dual gs :: after)) := by
  rw [isWritable_nary] at hwritable
  have hfw : f.IsWritable := hwritable f (by
    rw [List.mem_append, List.mem_cons]
    exact (List.mem_append.mp hf).imp_right .inr)
  have hgw : g.IsWritable := isWritable_nary.mp (hwritable (.nary c.dual gs) (by simp)) g hg
  rw [truth_collapse, truth_nary_perm c List.perm_middle]
  apply eq_of_eq_absorbing_iff c
  rw [truth_nary_cons_eq_absorbing_iff]
  refine ⟨.inr, ?_⟩
  rintro (hheld | hothers)
  · -- The node that goes is absorbing only if all its operands are, the common one among them.
    rw [← Connective.neutral_dual, truth_nary_eq_neutral_iff] at hheld
    have heq : f.truth v = c.absorbing := by
      rw [← truth_eq_of_key_eq hgw hfw hkey, hheld g hg, Connective.neutral_dual]
    exact truth_nary_eq_absorbing hf heq
  · exact hothers

theorem Law.truth_eq_of_distribution {first second third left right : List Formula} {f : Formula}
    (hwritable : IsWritable
      (.nary c (first ++ .nary c.dual left :: second ++ .nary c.dual right :: third)))
    (hf : f ∈ left) (hshared : ∃ g ∈ right, g.key = f.key) :
    truth v (collapse c
      (.nary c.dual
        [f, .nary c
          [collapse c.dual (left.filter fun g => ¬ f.equivalent g),
            collapse c.dual (right.filter fun g => ¬ f.equivalent g)]] ::
        (first ++ second ++ third))) =
      truth v (.nary c (first ++ .nary c.dual left :: second ++ .nary c.dual right :: third)) := by
  rw [isWritable_nary] at hwritable
  have hleft : ∀ g ∈ left, g.IsWritable :=
    isWritable_nary.mp (hwritable (.nary c.dual left) (by simp))
  have hright : ∀ g ∈ right, g.IsWritable :=
    isWritable_nary.mp (hwritable (.nary c.dual right) (by simp))
  have hmiddle : (first ++ .nary c.dual left :: second ++ .nary c.dual right :: third).Perm
      (.nary c.dual left :: .nary c.dual right :: (first ++ second ++ third)) := by
    rw [List.append_assoc, List.cons_append]
    refine List.perm_middle.trans (List.Perm.cons _ ?_)
    rw [← List.append_assoc]
    exact List.perm_middle
  -- A node of the dual connective is absorbing for `c` when it is neutral for its own.
  have hsplitl := truth_nary_eq_neutral_split (v := v) (c := c.dual) (hleft f hf) hleft
    ⟨f, hf, rfl⟩
  have hsplitr := truth_nary_eq_neutral_split (v := v) (c := c.dual) (hleft f hf) hright hshared
  have hfactored : truth v (.nary c.dual
        [f, .nary c
          [collapse c.dual (left.filter fun g => ¬ f.equivalent g),
            collapse c.dual (right.filter fun g => ¬ f.equivalent g)]]) = c.absorbing ↔
      truth v (.nary c.dual left) = c.absorbing ∨ truth v (.nary c.dual right) = c.absorbing := by
    rw [Connective.neutral_dual] at hsplitl hsplitr
    rw [hsplitl, hsplitr, ← and_or_left, ← Connective.neutral_dual,
      truth_nary_cons_eq_neutral_iff, truth_nary_singleton, Connective.neutral_dual,
      truth_nary_cons_eq_absorbing_iff, truth_nary_singleton]
  rw [truth_collapse, truth_nary_perm c hmiddle]
  apply eq_of_eq_absorbing_iff c
  rw [truth_nary_cons_eq_absorbing_iff, truth_nary_cons_eq_absorbing_iff,
    truth_nary_cons_eq_absorbing_iff, hfactored, or_assoc]

/-- A law keeps the truth value of a formula that can be written. -/
theorem Law.Relates.truth_eq {law : Law} {f g : Formula} (h : law.Relates f g)
    (hf : f.IsWritable) : g.truth v = f.truth v := by
  cases h with
  | doubleNegation => rw [truth, truth, Bool.not_not]
  | deMorgan c fs =>
      apply eq_of_eq_absorbing_iff c.dual
      rw [truth_nary_map_eq_absorbing_iff, truth, Connective.absorbing_dual, not_eq_neutral_iff,
        truth_nary_eq_absorbing_iff]
      simp only [truth, not_eq_neutral_iff]
  | constantComplement value => rfl
  | identity c fs hmem => rw [truth_collapse, truth_nary_filter_neutral]
  | annulment c fs hmem => exact (truth_nary_eq_absorbing hmem rfl).symm
  | idempotence c fs gs after hthins hlen hafter =>
      have hnary : truth v (.nary c gs) = truth v (.nary c fs) := by
        refine truth_nary_of_sublist hthins.sublist (isWritable_nary.mp hf) ?_
        intro f hmem
        rcases hthins.exists_key_eq hmem with ⟨e, he, -⟩ | hkept
        · exact absurd he List.not_mem_nil
        · exact hkept
      rcases hafter with rfl | rfl
      · exact hnary
      · rw [truth_collapse, hnary]
  | complement c fs f g hmem hneg hkey =>
      have hfs := isWritable_nary.mp hf
      have heq : g.truth v = f.truth v :=
        truth_eq_of_key_eq (isWritable_not.mp (hfs _ hneg)) (hfs f hmem) hkey
      symm
      -- Either the operand is absorbing or its negation.
      by_cases htruth : f.truth v = c.absorbing
      · exact truth_nary_eq_absorbing hmem htruth
      · refine truth_nary_eq_absorbing hneg ?_
        rw [truth, heq, ne_absorbing_iff.mp htruth, Connective.not_neutral]
  | absorption c before after gs f g hmem hg hkey => exact truth_eq_of_absorption hf hmem hg hkey
  | distribution c first second third left right f hmem hshared =>
      exact truth_eq_of_distribution hf hmem hshared
  | xorIdentityRight => simp [truth]
  | xorIdentityLeft => simp [truth]
  | xorWithOneRight => simp [truth]
  | xorWithOneLeft => simp [truth]
  | xorCancellation l r hkey =>
      obtain ⟨hl, hr⟩ := isWritable_xor.mp hf
      simp [truth, truth_eq_of_key_eq hl hr hkey]

end Laws

namespace Formula

variable {v : String → Bool}

/-! ## Normalization, steps and passes -/

theorem truth_normalizeNode {c : Connective} {fs : List Formula} (hfs : ∀ f ∈ fs, f.IsWritable) :
    truth v (normalizeNode c fs).value = truth v (.nary c fs) := by
  rw [value_normalizeNode]
  split
  next habsorbing => exact (truth_nary_eq_absorbing habsorbing rfl).symm
  next =>
    rw [truth_collapse, truth_nary_perm c (sortOperands_perm _)]
    rw [← truth_nary_filter_neutral c fs]
    refine truth_nary_of_sublist (distinct_sublist _) ?_ fun f hf => exists_mem_distinct hf
    exact fun f hf => hfs f (List.mem_filter.mp hf).1

theorem truth_nary_map {change : Formula → Formula} (c : Connective) {fs : List Formula}
    (h : ∀ f ∈ fs, (change f).truth v = f.truth v) :
    truth v (.nary c (fs.map change)) = truth v (.nary c fs) := by
  apply eq_of_eq_absorbing_iff c
  rw [truth_nary_map_eq_absorbing_iff, truth_nary_eq_absorbing_iff]
  constructor
  · rintro ⟨f, hf, htruth⟩
    exact ⟨f, hf, (h f hf).symm.trans htruth⟩
  · rintro ⟨f, hf, htruth⟩
    exact ⟨f, hf, (h f hf).trans htruth⟩

theorem truth_normalize {f : Formula} (hf : f.IsWritable) :
    f.normalize.truth v = f.truth v := by
  induction f with
  | const value => rfl
  | var name => rfl
  | not f ih => rw [normalize_not, truth, truth, ih (isWritable_not.mp hf)]
  | nary c fs ih =>
      have hfs := isWritable_nary.mp hf
      rw [normalize_nary, truth_normalizeNode, truth_nary_flatMap_splice, truth_nary_map]
      · exact fun f hmem => ih f hmem (hfs f hmem)
      · intro f hmem
        refine isWritable_of_mem_flatMap_splice ?_ hmem
        exact List.forall_mem_map.mpr fun g hg => (hfs g hg).normalize
  | xor l r ihl ihr =>
      obtain ⟨hl, hr⟩ := isWritable_xor.mp hf
      rw [normalize_xor, truth, truth, ihl hl, ihr hr]

theorem truth_reduceRoot {f : Formula} (hf : f.IsWritable) :
    f.reduceRoot.value.truth v = f.truth v := by
  unfold reduceRoot
  split
  next law g hroot => exact (rootLaw?_relates hroot).truth_eq hf
  next => rfl

theorem truth_step {f : Formula} (hf : f.IsWritable) : f.step.truth v = f.truth v := by
  induction f with
  | const value => rfl
  | var name => rfl
  | not f ih =>
      have hoperand := isWritable_not.mp hf
      rw [step_not, truth_reduceRoot (isWritable_not.mpr hoperand.step), truth, truth, ih hoperand]
  | nary c fs ih =>
      have hfs := isWritable_nary.mp hf
      rw [step_nary, truth_reduceRoot, truth_nary_map]
      · exact fun f hmem => ih f hmem (hfs f hmem)
      · rw [isWritable_nary]
        intro f hmem
        obtain ⟨g, hg, rfl⟩ := List.mem_map.mp hmem
        exact (hfs g hg).step
  | xor l r ihl ihr =>
      obtain ⟨hl, hr⟩ := isWritable_xor.mp hf
      rw [step_xor, truth_reduceRoot (isWritable_xor.mpr ⟨hl.step, hr.step⟩), truth, truth,
        ihl hl, ihr hr]

theorem truth_afterPasses (n : Nat) {f : Formula} (hf : f.IsWritable) :
    (afterPasses n f).truth v = f.truth v := by
  induction n generalizing f with
  | zero => rfl
  | succ n ih =>
      have hpass : f.pass.value.truth v = f.truth v := by
        rw [value_pass, truth_normalize hf.step, truth_step hf]
      exact (ih hf.step.normalize).trans hpass

/-! ## Evaluation -/

theorem evaluateOperands_eq {i : Interpretation} {c : Connective} {fs : List Formula}
    (h : ∀ f ∈ fs, f.evaluate i = .ok (f.truth v)) :
    evaluateOperands i c fs = .ok (truth v (.nary c fs)) := by
  induction fs with
  | nil => rw [evaluateOperands, truth_nary_nil]
  | cons f fs ih =>
      obtain ⟨hhead, htail⟩ := List.forall_mem_cons.mp h
      rw [evaluateOperands, hhead]
      change (if f.truth v = c.absorbing then Except.ok (f.truth v)
        else evaluateOperands i c fs) = _
      split
      next habsorbing =>
        rw [truth_nary_eq_absorbing List.mem_cons_self habsorbing, habsorbing]
      next hneutral =>
        rw [ih htail]
        congr 1
        apply eq_of_eq_absorbing_iff c
        rw [truth_nary_cons_eq_absorbing_iff, or_iff_right hneutral]

/-- An interpretation of every variable evaluates the formula to its truth value. -/
theorem evaluate_eq_truth {i : Interpretation} {f : Formula} (h : i.Binds f.names) :
    f.evaluate i = .ok (f.truth i.assignment) := by
  induction f with
  | const value => rfl
  | var name =>
      obtain ⟨value, hvalue⟩ := Option.isSome_iff_exists.mp (h name (by simp [names]))
      simp [evaluate, truth, Interpretation.assignment, hvalue]
  | not f ih =>
      rw [evaluate, ih h]
      rfl
  | nary c fs ih =>
      rw [evaluate]
      refine evaluateOperands_eq fun f hf => ih f hf ?_
      intro name hname
      apply h name
      rw [names_nary]
      exact List.mem_flatMap.mpr ⟨f, hf, hname⟩
  | xor l r ihl ihr =>
      have hl : i.Binds l.names := fun name hname => h name (List.mem_append_left _ hname)
      have hr : i.Binds r.names := fun name hname => h name (List.mem_append_right _ hname)
      rw [evaluate, ihl hl, ihr hr]
      rfl

theorem evaluate_eq_of_count_le {i : Interpretation} {f g : Formula} (hi : i.Binds f.vars)
    (hcount : ∀ name, g.names.count name ≤ f.names.count name)
    (htruth : g.truth i.assignment = f.truth i.assignment) :
    g.evaluate i = .ok (f.truth i.assignment) := by
  have hg : i.Binds g.names := by
    intro name hname
    exact hi name (mem_vars.mpr (mem_names_of_count_le hcount hname))
  rw [evaluate_eq_truth hg, htruth]

/-- Under an interpretation of all variables, a formula that can be written has a truth
value, and its normal form, its reduction and its simplification have the same one. -/
theorem evaluate_simplification {f : Formula} (hf : f.IsWritable) {i : Interpretation}
    (hi : i.Binds f.vars) :
    ∃ value, f.evaluate i = .ok value ∧ f.normalize.evaluate i = .ok value ∧
      f.step.evaluate i = .ok value ∧
      ∀ given s, f.simplify given = .ok s → s.formula.evaluate i = .ok value := by
  refine ⟨f.truth i.assignment, ?_, ?_, ?_, ?_⟩
  · exact evaluate_eq_of_count_le hi (fun _ => Nat.le_refl _) rfl
  · exact evaluate_eq_of_count_le hi (count_names_normalize_le f) (truth_normalize hf)
  · exact evaluate_eq_of_count_le hi (count_names_step_le f) (truth_step hf)
  · intro given s hs
    obtain ⟨k, -, hk⟩ := exists_afterPasses_of_simplify hs
    rw [hk]
    apply evaluate_eq_of_count_le hi
    · intro name
      exact Nat.le_trans (count_names_afterPasses_le k f.normalize name)
        (count_names_normalize_le f name)
    · rw [truth_afterPasses k hf.normalize, truth_normalize hf]

theorem evaluate_simplification_common_factor :
    let f : Formula :=
      .nary .or [.nary .and [.var "b", .var "a"], .nary .and [.nary .or [], .var "a"]]
    let i : Interpretation := ⟨[("a", true), ("b", false)]⟩
    f.IsWritable ∧ i.Binds f.vars ∧
      ∃ value, f.evaluate i = .ok value ∧ f.normalize.evaluate i = .ok value ∧
        f.step.evaluate i = .ok value ∧
        ∀ given s, f.simplify given = .ok s → s.formula.evaluate i = .ok value :=
  ⟨by decide, by decide, evaluate_simplification (by decide) (by decide)⟩

end Formula

end BooleanSteps
