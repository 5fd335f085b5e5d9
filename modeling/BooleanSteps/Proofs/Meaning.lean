import BooleanSteps.Law.Instance
import BooleanSteps.Formula.Truth
import BooleanSteps.Proofs.KeyDecoding
import BooleanSteps.Proofs.Normality

/-!
# Laws keep the truth value

A node of a connective is absorbing exactly when one of its operands is, and every fact
about nodes below is proved in this form. Laws compare operands by key, so they keep the
truth value of formulas that can be written, where equivalent formulas have equal values.
-/

namespace BooleanSteps

namespace Formula

variable {v : String → Bool}

/-! ## Nodes of a connective -/

/-- Two truth values are the same if they are absorbing together. -/
theorem eq_of_eq_absorbing_iff (c : Connective) {a b : Bool}
    (h : a = c.absorbing ↔ b = c.absorbing) : a = b := by
  cases c <;> cases a <;> cases b <;> simp_all [Connective.absorbing]

theorem ne_absorbing_iff {c : Connective} {a : Bool} : a ≠ c.absorbing ↔ a = c.neutral := by
  cases c <;> cases a <;> simp [Connective.absorbing, Connective.neutral]

theorem not_eq_neutral_iff {c : Connective} {a : Bool} :
    (!a) = c.neutral ↔ a = c.absorbing := by
  cases c <;> cases a <;> simp [Connective.absorbing, Connective.neutral]

theorem truth_nary_eq_absorbing_iff {c : Connective} {fs : List Formula} :
    truth v (.nary c fs) = c.absorbing ↔ ∃ f ∈ fs, f.truth v = c.absorbing := by
  rw [truth_nary]
  split
  next hany => simpa using hany
  next hany =>
    have hne : c.neutral ≠ c.absorbing := c.neutral_ne_absorbing
    simp_all

theorem truth_nary_eq_neutral_iff {c : Connective} {fs : List Formula} :
    truth v (.nary c fs) = c.neutral ↔ ∀ f ∈ fs, f.truth v = c.neutral := by
  simp only [← ne_absorbing_iff, ne_eq, truth_nary_eq_absorbing_iff, not_exists, not_and]

theorem truth_nary_map_eq_absorbing_iff {c : Connective} {change : Formula → Formula}
    {fs : List Formula} :
    truth v (.nary c (fs.map change)) = c.absorbing ↔
      ∃ f ∈ fs, (change f).truth v = c.absorbing := by
  rw [truth_nary_eq_absorbing_iff]
  constructor
  · rintro ⟨g, hg, htruth⟩
    obtain ⟨f, hf, rfl⟩ := List.mem_map.mp hg
    exact ⟨f, hf, htruth⟩
  · rintro ⟨f, hf, htruth⟩
    exact ⟨change f, List.mem_map_of_mem hf, htruth⟩

theorem truth_nary_congr {c : Connective} {fs gs : List Formula}
    (h : (∃ f ∈ fs, f.truth v = c.absorbing) ↔ ∃ g ∈ gs, g.truth v = c.absorbing) :
    truth v (.nary c fs) = truth v (.nary c gs) := by
  apply eq_of_eq_absorbing_iff c
  rw [truth_nary_eq_absorbing_iff, truth_nary_eq_absorbing_iff]
  exact h

theorem truth_nary_eq_absorbing {c : Connective} {fs : List Formula} {f : Formula}
    (hf : f ∈ fs) (htruth : f.truth v = c.absorbing) :
    truth v (.nary c fs) = c.absorbing :=
  truth_nary_eq_absorbing_iff.mpr ⟨f, hf, htruth⟩

theorem truth_nary_cons_eq_absorbing_iff {c : Connective} {f : Formula} {fs : List Formula} :
    truth v (.nary c (f :: fs)) = c.absorbing ↔
      f.truth v = c.absorbing ∨ truth v (.nary c fs) = c.absorbing := by
  simp only [truth_nary_eq_absorbing_iff, List.mem_cons, exists_eq_or_imp]

theorem truth_nary_cons_eq_neutral_iff {c : Connective} {f : Formula} {fs : List Formula} :
    truth v (.nary c (f :: fs)) = c.neutral ↔
      f.truth v = c.neutral ∧ truth v (.nary c fs) = c.neutral := by
  rw [truth_nary_eq_neutral_iff, truth_nary_eq_neutral_iff, List.forall_mem_cons]

@[simp] theorem truth_nary_nil (c : Connective) : truth v (.nary c []) = c.neutral := by
  rw [truth_nary_eq_neutral_iff]
  simp

@[simp] theorem truth_nary_singleton (c : Connective) (f : Formula) :
    truth v (.nary c [f]) = f.truth v := by
  apply eq_of_eq_absorbing_iff c
  rw [truth_nary_eq_absorbing_iff]
  simp

theorem truth_collapse (c : Connective) (fs : List Formula) :
    truth v (collapse c fs) = truth v (.nary c fs) := by
  refine collapse_cases c fs ?_ ?_ ?_
  · rintro rfl
    rw [truth_nary_nil, truth]
  · rintro f rfl
    rw [truth_nary_singleton]
  · exact fun _ => rfl

/-- A node that is taken in counts as its operands do. -/
theorem truth_nary_flatMap_splice (c : Connective) (fs : List Formula) :
    truth v (.nary c (fs.flatMap (splice c))) = truth v (.nary c fs) := by
  have hsplice (f : Formula) :
      (∃ g ∈ splice c f, g.truth v = c.absorbing) ↔ f.truth v = c.absorbing := by
    rcases splice_eq c f with ⟨heq, -⟩ | ⟨gs, rfl, heq⟩
    · simp [heq]
    · rw [heq, truth_nary_eq_absorbing_iff]
  apply truth_nary_congr
  constructor
  · rintro ⟨g, hg, htruth⟩
    obtain ⟨f, hf, hgf⟩ := List.mem_flatMap.mp hg
    exact ⟨f, hf, (hsplice f).mp ⟨g, hgf, htruth⟩⟩
  · rintro ⟨f, hf, htruth⟩
    obtain ⟨g, hg, htruth⟩ := (hsplice f).mpr htruth
    exact ⟨g, List.mem_flatMap.mpr ⟨f, hf, hg⟩, htruth⟩

theorem truth_nary_filter_neutral (c : Connective) (fs : List Formula) :
    truth v (.nary c (fs.filter (· ≠ .const c.neutral))) = truth v (.nary c fs) := by
  apply truth_nary_congr
  constructor
  · rintro ⟨f, hf, htruth⟩
    exact ⟨f, (List.mem_filter.mp hf).1, htruth⟩
  · rintro ⟨f, hf, htruth⟩
    refine ⟨f, List.mem_filter.mpr ⟨hf, decide_eq_true ?_⟩, htruth⟩
    rintro rfl
    exact c.neutral_ne_absorbing htruth

theorem truth_nary_perm (c : Connective) {fs gs : List Formula} (h : fs.Perm gs) :
    truth v (.nary c fs) = truth v (.nary c gs) := by
  apply truth_nary_congr
  simp only [h.mem_iff]

/-! ## Equivalent formulas -/

/-- Formulas with the same key have the same truth value. -/
theorem truth_eq_of_key_eq {f g : Formula} (hf : f.IsWritable) (hg : g.IsWritable)
    (hkey : f.key = g.key) : f.truth v = g.truth v := by
  induction g generalizing f with
  | const value => rw [eq_const_of_key_eq hkey]
  | var name => rw [eq_var_of_key_eq hkey]
  | not g ih =>
      obtain ⟨f', rfl, hoperand⟩ := exists_not_of_key_eq hkey
      rw [truth, truth, ih (isWritable_not.mp hf) (isWritable_not.mp hg) hoperand]
  | nary c gs ih =>
      obtain ⟨fs, rfl, hperm⟩ := exists_nary_of_key_eq hf hg hkey
      rw [isWritable_nary] at hf hg
      -- The operands correspond by their keys, not by their places.
      apply truth_nary_congr
      constructor
      · rintro ⟨f, hmem, htruth⟩
        obtain ⟨g, hgmem, hkey⟩ := exists_mem_of_perm_keys hperm hmem
        exact ⟨g, hgmem, (ih g hgmem (hf f hmem) (hg g hgmem) hkey.symm).symm.trans htruth⟩
      · rintro ⟨g, hmem, htruth⟩
        obtain ⟨f, hfmem, hkey⟩ := exists_mem_of_perm_keys hperm.symm hmem
        exact ⟨f, hfmem, (ih g hmem (hf f hfmem) (hg g hmem) hkey).trans htruth⟩
  | xor l r ihl ihr =>
      obtain ⟨l', r', rfl, hl, hr⟩ := exists_xor_of_key_eq hf hg hkey
      rw [isWritable_xor] at hf hg
      rw [truth, truth, ihl hf.1 hg.1 hl, ihr hf.2 hg.2 hr]

/-- Operands may go as long as one equivalent to each of them stays. -/
theorem truth_nary_of_sublist {c : Connective} {fs gs : List Formula} (hsub : gs.Sublist fs)
    (hfs : ∀ f ∈ fs, f.IsWritable) (hkeep : ∀ f ∈ fs, ∃ g ∈ gs, g.key = f.key) :
    truth v (.nary c gs) = truth v (.nary c fs) := by
  apply truth_nary_congr
  constructor
  · rintro ⟨g, hg, htruth⟩
    exact ⟨g, hsub.subset hg, htruth⟩
  · rintro ⟨f, hf, htruth⟩
    obtain ⟨g, hg, hkey⟩ := hkeep f hf
    have heq : g.truth v = f.truth v :=
      truth_eq_of_key_eq (hfs g (hsub.subset hg)) (hfs f hf) hkey
    exact ⟨g, hg, heq.trans htruth⟩

/-- A node with an operand equivalent to `f` is neutral if `f` and the others are. -/
theorem truth_nary_eq_neutral_split {c : Connective} {f : Formula} {fs : List Formula}
    (hf : f.IsWritable) (hfs : ∀ g ∈ fs, g.IsWritable) (hmem : ∃ g ∈ fs, g.key = f.key) :
    truth v (.nary c fs) = c.neutral ↔
      f.truth v = c.neutral ∧
        truth v (collapse c (fs.filter fun g => ¬ f.equivalent g)) = c.neutral := by
  rw [truth_collapse, truth_nary_eq_neutral_iff, truth_nary_eq_neutral_iff]
  constructor
  · intro h
    obtain ⟨g, hg, hkey⟩ := hmem
    have heq : f.truth v = g.truth v := truth_eq_of_key_eq hf (hfs g hg) hkey.symm
    exact ⟨heq.trans (h g hg), fun g hg => h g ((List.mem_filter.mp hg).1)⟩
  · rintro ⟨hneutral, hothers⟩ g hg
    by_cases hkey : f.key = g.key
    · rw [← truth_eq_of_key_eq hf (hfs g hg) hkey]
      exact hneutral
    · exact hothers g (List.mem_filter.mpr ⟨hg, by simpa [equivalent] using hkey⟩)

end Formula

end BooleanSteps
