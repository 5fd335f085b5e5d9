import Mathlib.Data.List.Permutation
import BooleanSteps.Proofs.Irreducibility
import BooleanSteps.Proofs.Likeness

/-!
# Order and grouping do not matter

Formulas that are alike have the same normal form, and a run depends on nothing else. Between
normal formulas that can be written, to have the same key or the same text is to be the same,
so what normalization makes of a node depends only on which operands there are. A group of
operands that is normalized first may be decided or lose its constants earlier than the node
around it, but the node itself does not see the difference.
-/

namespace BooleanSteps.Formula

variable {f g : Formula} {c : Connective} {fs gs : List Formula}

/-! ## Keys of normal formulas -/

/-- Distinct sorted operands with the same members are the same operands in the same order. -/
theorem eq_of_mem_iff_of_sorted (hfs : ∀ f ∈ fs, f.IsNormal ∧ f.IsWritable)
    (hgs : ∀ g ∈ gs, g.IsNormal ∧ g.IsWritable)
    (hfkeys : fs.Pairwise fun f g => f.key ≠ g.key) (hgkeys : gs.Pairwise fun f g => f.key ≠ g.key)
    (hfsorted : fs.Pairwise fun f g => f.render ≤ g.render)
    (hgsorted : gs.Pairwise fun f g => f.render ≤ g.render)
    (h : ∀ f, f ∈ fs ↔ f ∈ gs) : fs = gs := by
  have hnodup {hs : List Formula} (hkeys : hs.Pairwise fun f g => f.key ≠ g.key) : hs.Nodup :=
    hkeys.imp fun hne heq => hne (congrArg key heq)
  have hperm : fs.Perm gs :=
    (List.perm_ext_iff_of_nodup (hnodup hfkeys) (hnodup hgkeys)).mpr h
  refine hperm.eq_of_pairwise ?_ hfsorted hgsorted
  intro f g hf hg hle hge
  obtain ⟨hfnormal, hfwritable⟩ := hfs f hf
  obtain ⟨hgnormal, hgwritable⟩ := hgs g hg
  exact eq_of_render_eq hfnormal hgnormal hfwritable hgwritable (String.le_antisymm hle hge)

/-- Normal formulas that can be written are the same if they have the same key. -/
theorem eq_of_key_eq (hf : f.IsNormal) (hg : g.IsNormal) (hfw : f.IsWritable)
    (hgw : g.IsWritable) (h : f.key = g.key) : f = g := by
  induction f generalizing g with
  | const value => exact (eq_const_of_key_eq h.symm).symm
  | var name => exact (eq_var_of_key_eq h.symm).symm
  | not f ih =>
      obtain ⟨g', rfl, hkey⟩ := exists_not_of_key_eq h.symm
      rw [ih (isNormal_not.mp hf) (isNormal_not.mp hg) (isWritable_not.mp hfw)
        (isWritable_not.mp hgw) hkey.symm]
  | nary c fs ih =>
      obtain ⟨gs, rfl, hperm⟩ := exists_nary_of_key_eq hgw hfw h.symm
      obtain ⟨hfnode, hfs⟩ := isNormal_nary.mp hf
      obtain ⟨hgnode, hgs⟩ := isNormal_nary.mp hg
      rw [isWritable_nary] at hfw hgw
      have heq : ∀ f ∈ fs, ∀ g ∈ gs, f.key = g.key → f = g := fun f hmem g hgmem hkey =>
        ih f hmem (hfs f hmem) (hgs g hgmem) (hfw f hmem) (hgw g hgmem) hkey
      -- Each list has a formula with the key of a member of the other, so it has the member.
      have hmem : ∀ k, k ∈ fs ↔ k ∈ gs := by
        intro k
        constructor
        · intro hk
          obtain ⟨g, hgmem, hkey⟩ := exists_mem_of_perm_keys hperm.symm hk
          rwa [heq k hk g hgmem hkey.symm]
        · intro hk
          obtain ⟨f, hfmem, hkey⟩ := exists_mem_of_perm_keys hperm hk
          rwa [← heq f hfmem k hk hkey]
      rw [eq_of_mem_iff_of_sorted (fun f hmem => ⟨hfs f hmem, hfw f hmem⟩)
        (fun g hmem => ⟨hgs g hmem, hgw g hmem⟩) hfnode.keys_ne hgnode.keys_ne hfnode.sorted
        hgnode.sorted hmem]
  | xor l r ihl ihr =>
      obtain ⟨l', r', rfl, hl, hr⟩ := exists_xor_of_key_eq hgw hfw h.symm
      rw [isNormal_xor] at hf hg
      rw [isWritable_xor] at hfw hgw
      rw [ihl hf.1 hg.1 hfw.1 hgw.1 hl.symm, ihr hf.2 hg.2 hfw.2 hgw.2 hr.symm]

/-! ## Texts and keys -/

/-- Text and key tell the same normal formulas apart. -/
theorem render_eq_iff_key_eq (hf : f.IsNormal) (hg : g.IsNormal) (hfw : f.IsWritable)
    (hgw : g.IsWritable) : (f.render = g.render ↔ f.key = g.key) ∧ (f.key = g.key ↔ f = g) := by
  have htext : f.render = g.render ↔ f = g :=
    ⟨eq_of_render_eq hf hg hfw hgw, fun h => h ▸ rfl⟩
  have hkey : f.key = g.key ↔ f = g :=
    ⟨eq_of_key_eq hf hg hfw hgw, fun h => h ▸ rfl⟩
  exact ⟨htext.trans hkey.symm, hkey⟩

/-- Normalized formulas have the same text exactly if they have the same key, and then they are
the same. So the text that a pass is compared by and the key that the laws compare by agree at
any two points of a run. -/
theorem render_eq_iff_key_eq_of_normalize (hf : f.normalize.IsWritable)
    (hg : g.normalize.IsWritable) :
    (f.normalize.render = g.normalize.render ↔ f.normalize.key = g.normalize.key) ∧
      (f.normalize.key = g.normalize.key ↔ f.normalize = g.normalize) ∧
      ∀ i j, (afterPasses i f.normalize).render = (afterPasses j f.normalize).render ↔
        (afterPasses i f.normalize).key = (afterPasses j f.normalize).key := by
  obtain ⟨htext, hkey⟩ :=
    render_eq_iff_key_eq (normalize_isNormal f) (normalize_isNormal g) hf hg
  refine ⟨htext, hkey, ?_⟩
  intro i j
  have hnormal (n : Nat) : (afterPasses n f.normalize).IsNormal :=
    afterPasses_isNormal (normalize_isNormal f) n
  exact (render_eq_iff_key_eq (hnormal i) (hnormal j) (hf.afterPasses i) (hf.afterPasses j)).1

/-- A name that cannot be written does no harm where normalization drops it. -/
theorem render_eq_iff_key_eq_of_normalize_dropped_name :
    let f : Formula := .nary .or
      [.nary .and [.var "a & b", .const false], .nary .and [.var "b", .var "a", .var "b"]]
    let g : Formula := .nary .and [.var "a", .nary .and [.var "b"], .nary .and []]
    ¬ f.IsWritable ∧ f.normalize.IsWritable ∧ g.normalize.IsWritable ∧
      f.normalize.render = g.normalize.render ∧ f.normalize.key = g.normalize.key ∧
      f.normalize = g.normalize := by
  intro f g
  have hfnormal : f.normalize = .nary .and [.var "a", .var "b"] := by cbv
  have hgnormal : g.normalize = .nary .and [.var "a", .var "b"] := by cbv
  have hf : f.normalize.IsWritable := by
    rw [hfnormal]
    decide
  have hg : g.normalize.IsWritable := by
    rw [hgnormal]
    decide
  have htext : f.normalize.render = g.normalize.render := by rw [hfnormal, hgnormal]
  obtain ⟨hkey, heq, -⟩ := render_eq_iff_key_eq_of_normalize hf hg
  exact ⟨by decide, hf, hg, htext, hkey.mp htext, heq.mp (hkey.mp htext)⟩

/-! ## Operands that make the same node -/

theorem mem_distinct_iff (hfs : ∀ f ∈ fs, f.IsNormal ∧ f.IsWritable) :
    f ∈ distinct fs ↔ f ∈ fs := by
  constructor
  · exact mem_of_mem_distinct
  · intro hf
    obtain ⟨g, hg, hkey⟩ := exists_mem_distinct hf
    obtain ⟨hgnormal, hgwritable⟩ := hfs g (mem_of_mem_distinct hg)
    rwa [← eq_of_key_eq hgnormal (hfs f hf).1 hgwritable (hfs f hf).2 hkey]

theorem sortOperands_distinct_congr (hfs : ∀ f ∈ fs, f.IsNormal ∧ f.IsWritable)
    (hgs : ∀ g ∈ gs, g.IsNormal ∧ g.IsWritable) (h : ∀ f, f ∈ fs ↔ f ∈ gs) :
    sortOperands (distinct fs) = sortOperands (distinct gs) := by
  have hkeys (hs : List Formula) :
      (sortOperands (distinct hs)).Pairwise fun f g => f.key ≠ g.key :=
    ((sortOperands_perm _).pairwise_iff Ne.symm).mpr (pairwise_distinct hs)
  have hmem (hs : List Formula) (f : Formula) (hf : f ∈ sortOperands (distinct hs)) : f ∈ hs :=
    mem_of_mem_distinct (mem_sortOperands.mp hf)
  refine eq_of_mem_iff_of_sorted (fun f hf => hfs f (hmem fs f hf))
    (fun g hg => hgs g (hmem gs g hg)) (hkeys fs) (hkeys gs) (pairwise_sortOperands _)
    (pairwise_sortOperands _) ?_
  intro f
  rw [mem_sortOperands, mem_sortOperands, mem_distinct_iff hfs, mem_distinct_iff hgs]
  exact h f

/-- A node of `c` does not depend on which of the two lists its operands are: an absorbing
constant is in both, or they have the same members up to neutral constants. -/
structure Interchangeable (c : Connective) (fs gs : List Formula) : Prop where
  absorbing : .const c.absorbing ∈ fs ↔ .const c.absorbing ∈ gs
  mem : .const c.absorbing ∉ fs → ∀ f, f ≠ .const c.neutral → (f ∈ fs ↔ f ∈ gs)

theorem interchangeable_of_mem_iff (c : Connective) (h : ∀ f, f ∈ fs ↔ f ∈ gs) :
    Interchangeable c fs gs :=
  ⟨h _, fun _ f _ => h f⟩

theorem Interchangeable.symm (h : Interchangeable c fs gs) : Interchangeable c gs fs where
  absorbing := h.absorbing.symm
  mem hnot f hf := (h.mem (mt h.absorbing.mp hnot) f hf).symm

theorem Interchangeable.trans {hs : List Formula} (hfg : Interchangeable c fs gs)
    (hgh : Interchangeable c gs hs) : Interchangeable c fs hs where
  absorbing := hfg.absorbing.trans hgh.absorbing
  mem hnot f hf := (hfg.mem hnot f hf).trans (hgh.mem (mt hfg.absorbing.mpr hnot) f hf)

/-- Parts of a list may be interchanged. -/
theorem Interchangeable.flatMap {hs : List Formula} {first second : Formula → List Formula}
    (h : ∀ k ∈ hs, Interchangeable c (first k) (second k)) :
    Interchangeable c (hs.flatMap first) (hs.flatMap second) where
  absorbing := by
    rw [List.mem_flatMap, List.mem_flatMap]
    exact exists_congr fun k => and_congr_right fun hk => (h k hk).absorbing
  mem := by
    intro hnot f hf
    rw [List.mem_flatMap, List.mem_flatMap]
    refine exists_congr fun k => and_congr_right fun hk => (h k hk).mem ?_ f hf
    exact fun hmem => hnot (List.mem_flatMap.mpr ⟨k, hk, hmem⟩)

theorem Interchangeable.normalizeNode_eq (h : Interchangeable c fs gs)
    (hfs : ∀ f ∈ fs, f.IsNormal ∧ f.IsWritable) (hgs : ∀ g ∈ gs, g.IsNormal ∧ g.IsWritable) :
    (normalizeNode c fs).value = (normalizeNode c gs).value := by
  rw [value_normalizeNode, value_normalizeNode]
  by_cases habsorbing : .const c.absorbing ∈ fs
  · rw [if_pos habsorbing, if_pos (h.absorbing.mp habsorbing)]
  · rw [if_neg habsorbing, if_neg (mt h.absorbing.mpr habsorbing)]
    congr 1
    apply sortOperands_distinct_congr
    · exact fun f hf => hfs f (List.mem_filter.mp hf).1
    · exact fun g hg => hgs g (List.mem_filter.mp hg).1
    · intro f
      rw [List.mem_filter, List.mem_filter]
      refine and_congr_left fun hf => h.mem habsorbing f ?_
      exact of_decide_eq_true hf

/-! ## Grouping -/

theorem interchangeable_splice_collapse (hfs : ∀ f ∈ fs, f.operands? c = none) :
    Interchangeable c (splice c (collapse c fs)) fs := by
  by_cases hnil : fs = []
  · -- The neutral constant stands for no operand at all.
    subst hnil
    have hsplice : splice c (collapse c []) = [.const c.neutral] := rfl
    rw [hsplice]
    refine ⟨iff_of_false ?_ List.not_mem_nil, ?_⟩
    · simpa using c.neutral_ne_absorbing.symm
    · exact fun _ f hf => iff_of_false (mt List.mem_singleton.mp hf) List.not_mem_nil
  · rw [splice_collapse hnil hfs]
    exact interchangeable_of_mem_iff c fun _ => Iff.rfl

/-- Dropping neutral constants and repetitions and sorting make no difference. -/
theorem interchangeable_sorted (hfs : ∀ f ∈ fs, f.IsNormal ∧ f.IsWritable) :
    Interchangeable c (sortOperands (distinct (fs.filter (· ≠ .const c.neutral)))) fs := by
  have hmem (f : Formula) : f ∈ sortOperands (distinct (fs.filter (· ≠ .const c.neutral))) ↔
      f ∈ fs ∧ f ≠ .const c.neutral := by
    rw [mem_sortOperands, mem_distinct_iff fun f hf => hfs f (List.mem_filter.mp hf).1,
      List.mem_filter, decide_eq_true_iff]
  constructor
  · rw [hmem]
    exact and_iff_left (by simpa using c.neutral_ne_absorbing.symm)
  · intro _ f hf
    rw [hmem]
    exact and_iff_left hf

/-- To a node around them, operands are the same as the normal form of their own node. -/
theorem interchangeable_splice_normalizeNode (hfs : ∀ f ∈ fs, f.IsNormal ∧ f.IsWritable)
    (hnested : ∀ f ∈ fs, f.operands? c = none) :
    Interchangeable c (splice c (normalizeNode c fs).value) fs := by
  rw [value_normalizeNode]
  split
  next habsorbing =>
    have hsplice : splice c (.const c.absorbing) = [.const c.absorbing] := rfl
    rw [hsplice]
    refine ⟨iff_of_true (List.mem_singleton_self _) habsorbing, ?_⟩
    exact fun hnot => absurd (List.mem_singleton_self _) hnot
  next =>
    refine (interchangeable_splice_collapse ?_).trans (interchangeable_sorted hfs)
    intro f hf
    exact hnested f (List.mem_filter.mp (mem_of_mem_distinct (mem_sortOperands.mp hf))).1

theorem normalizeNode_nil (c : Connective) : (normalizeNode c []).value = .const c.neutral := by
  rw [value_normalizeNode, if_neg List.not_mem_nil, List.filter_nil, distinct_nil,
    sortOperands_eq_self List.Pairwise.nil]
  rfl

theorem normalizeNode_singleton (c : Connective) (f : Formula) :
    (normalizeNode c [f]).value = f := by
  rw [value_normalizeNode]
  by_cases habsorbing : f = .const c.absorbing
  · rw [if_pos (List.mem_singleton.mpr habsorbing.symm), habsorbing]
  · rw [if_neg fun hmem => habsorbing (List.mem_singleton.mp hmem).symm]
    by_cases hneutral : f = .const c.neutral
    · rw [List.filter_cons_of_neg (by simpa using hneutral), List.filter_nil, distinct_nil,
        sortOperands_eq_self List.Pairwise.nil, hneutral]
      rfl
    · rw [List.filter_cons_of_pos (by simpa using hneutral), List.filter_nil,
        distinct_eq_self (List.pairwise_singleton _ _),
        sortOperands_eq_self (List.pairwise_singleton _ _), collapse_singleton]

/-- The normal form of a node that takes in a normal formula is this formula. -/
theorem normalizeNode_splice (c : Connective) (hf : f.IsNormal) :
    (normalizeNode c (splice c f)).value = f := by
  rcases splice_eq c f with ⟨heq, -⟩ | ⟨fs, rfl, heq⟩
  · rw [heq, normalizeNode_singleton]
  · rw [heq, (isNormal_nary.mp hf).1.normalizeNode_eq]
    rfl

theorem normalize_collapse (c : Connective) (fs : List Formula) :
    (collapse c fs).normalize = normalize (.nary c fs) := by
  refine collapse_cases c fs ?_ ?_ ?_
  · rintro rfl
    rw [normalize_nary, List.map_nil, List.flatMap_nil, normalizeNode_nil, normalize_const]
  · rintro f rfl
    rw [normalize_nary, List.map_singleton, List.flatMap_singleton,
      normalizeNode_splice c (normalize_isNormal f)]
  · exact fun _ => rfl

theorem of_mem_flatMap_splice_normalize (hfs : ∀ f ∈ fs, f.IsWritable)
    (hg : g ∈ (fs.map normalize).flatMap (splice c)) :
    (g.IsNormal ∧ g.IsWritable) ∧ g.operands? c = none := by
  obtain ⟨f', hf', hg⟩ := List.mem_flatMap.mp hg
  obtain ⟨f, hf, rfl⟩ := List.mem_map.mp hf'
  obtain ⟨hnormal, hnested⟩ := (normalize_isNormal f).of_mem_splice hg
  exact ⟨⟨hnormal, (hfs f hf).normalize.of_mem_splice hg⟩, hnested⟩

/-- The operands of a group may be normalized one by one or together. -/
theorem interchangeable_splice_normalize (c : Connective) (hf : f.IsWritable) :
    Interchangeable c (((splice c f).map normalize).flatMap (splice c)) (splice c f.normalize) := by
  rcases splice_eq c f with ⟨heq, -⟩ | ⟨fs, rfl, heq⟩
  · rw [heq, List.map_singleton, List.flatMap_singleton]
    exact interchangeable_of_mem_iff c fun _ => Iff.rfl
  · have hfs := isWritable_nary.mp hf
    rw [heq, normalize_nary]
    refine (interchangeable_splice_normalizeNode ?_ ?_).symm
    · exact fun g hg => (of_mem_flatMap_splice_normalize hfs hg).1
    · exact fun g hg => (of_mem_flatMap_splice_normalize hfs hg).2

/-- Grouping does not change the normal form. -/
theorem normalize_flat (hf : f.IsWritable) : f.flat.normalize = f.normalize := by
  induction f with
  | const value | var name => rfl
  | not f ih => rw [flat_not, normalize_not, normalize_not, ih (isWritable_not.mp hf)]
  | nary c fs ih =>
      rw [isWritable_nary] at hf
      have hflat : ∀ g ∈ (fs.map flat).flatMap (splice c), g.IsWritable := fun g hg =>
        isWritable_of_mem_flatMap_splice
          (List.forall_mem_map.mpr fun f hmem => (hf f hmem).flat) hg
      rw [flat_nary, normalize_collapse, normalize_nary, normalize_nary]
      refine Interchangeable.normalizeNode_eq ?_
        (fun g hg => (of_mem_flatMap_splice_normalize hflat hg).1)
        (fun g hg => (of_mem_flatMap_splice_normalize hf hg).1)
      -- Both lists are put together from what the operands contribute, one after the other.
      rw [List.map_flatMap, List.flatMap_assoc, List.flatMap_map, List.flatMap_map]
      apply Interchangeable.flatMap
      intro f hmem
      rw [← ih f hmem (hf f hmem)]
      exact interchangeable_splice_normalize c (hf f hmem).flat
  | xor l r ihl ihr =>
      obtain ⟨hl, hr⟩ := isWritable_xor.mp hf
      rw [flat_xor, normalize_xor, normalize_xor, ihl hl, ihr hr]

/-! ## Order -/

/-- Order does not change the normal form. -/
theorem normalize_eq_of_key_eq (hf : f.IsWritable) (hg : g.IsWritable) (h : f.key = g.key) :
    f.normalize = g.normalize := by
  induction f generalizing g with
  | const value => rw [eq_const_of_key_eq h.symm]
  | var name => rw [eq_var_of_key_eq h.symm]
  | not f ih =>
      obtain ⟨g', rfl, hkey⟩ := exists_not_of_key_eq h.symm
      rw [normalize_not, normalize_not,
        ih (isWritable_not.mp hf) (isWritable_not.mp hg) hkey.symm]
  | nary c fs ih =>
      obtain ⟨gs, rfl, hperm⟩ := exists_nary_of_key_eq hg hf h.symm
      rw [isWritable_nary] at hf hg
      have heq : ∀ f ∈ fs, ∀ g ∈ gs, f.key = g.key → f.normalize = g.normalize :=
        fun f hmem g hgmem hkey => ih f hmem (hf f hmem) (hg g hgmem) hkey
      rw [normalize_nary, normalize_nary]
      refine Interchangeable.normalizeNode_eq (interchangeable_of_mem_iff c ?_)
        (fun g hmem => (of_mem_flatMap_splice_normalize hf hmem).1)
        (fun g hmem => (of_mem_flatMap_splice_normalize hg hmem).1)
      intro k
      simp only [List.flatMap_map, List.mem_flatMap]
      constructor
      · rintro ⟨f, hmem, hk⟩
        obtain ⟨g, hgmem, hkey⟩ := exists_mem_of_perm_keys hperm.symm hmem
        exact ⟨g, hgmem, heq f hmem g hgmem hkey.symm ▸ hk⟩
      · rintro ⟨g, hmem, hk⟩
        obtain ⟨f, hfmem, hkey⟩ := exists_mem_of_perm_keys hperm hmem
        exact ⟨f, hfmem, heq f hfmem g hmem hkey ▸ hk⟩
  | xor l r ihl ihr =>
      obtain ⟨l', r', rfl, hl, hr⟩ := exists_xor_of_key_eq hg hf h.symm
      rw [isWritable_xor] at hf hg
      rw [normalize_xor, normalize_xor, ihl hf.1 hg.1 hl.symm, ihr hf.2 hg.2 hr.symm]

theorem Alike.normalize_eq (hf : f.IsWritable) (hg : g.IsWritable) (h : f.Alike g) :
    f.normalize = g.normalize := by
  rw [← normalize_flat hf, ← normalize_flat hg]
  exact normalize_eq_of_key_eq hf.flat hg.flat h

/-! ## Simplification -/

/-- The run of a formula depends on its normal form and the limit only. -/
theorem map_value_simplifyDerived?_congr (h : f.normalize = g.normalize) (cap : Nat) :
    (f.simplifyDerived? (some cap)).map (·.value) =
      (g.simplifyDerived? (some cap)).map (·.value) := by
  have hrun : f.run (some cap) = g.run (some cap) := by
    unfold run
    rw [h]
    rfl
  unfold simplifyDerived?
  rw [hrun, Option.map_map, Option.map_map]
  rfl

/-- Formulas that differ in order and grouping only have the same normal form. Under any
limit their simplifications have the same result, or both exceed the limit. -/
theorem normalize_eq_and_simplify_of_alike (hf : f.IsWritable) (hg : g.IsWritable)
    (h : f.Alike g) :
    f.normalize = g.normalize ∧
      ∀ cap, (∃ s t, f.simplify (some cap) = .ok s ∧ g.simplify (some cap) = .ok t ∧
          s.formula = t.formula) ∨
        (f.simplify (some cap) = .error ⟨cap⟩ ∧ g.simplify (some cap) = .error ⟨cap⟩) := by
  have hnormalize := h.normalize_eq hf hg
  refine ⟨hnormalize, ?_⟩
  intro cap
  have hvalue := map_value_simplifyDerived?_congr hnormalize cap
  unfold simplify
  cases hfresult : f.simplifyDerived? (some cap) with
  | none =>
      rw [hfresult, Option.map_none, eq_comm, Option.map_eq_none_iff] at hvalue
      rw [hvalue]
      exact .inr ⟨rfl, rfl⟩
  | some d =>
      rw [hfresult, Option.map_some, eq_comm, Option.map_eq_some_iff] at hvalue
      obtain ⟨e, hgresult, hvalue⟩ := hvalue
      rw [hgresult]
      exact .inl ⟨_, _, rfl, rfl, hvalue.symm⟩

theorem normalize_eq_and_simplify_of_alike_nested :
    let f : Formula := .nary .or [.nary .and [.var "b", .var "a"],
      .nary .or [.nary .and [.var "c", .nary .and [.var "a"]], .nary .or []]]
    let g : Formula := .nary .or
      [.const false, .nary .and [.var "b", .var "a"], .nary .and [.var "a", .var "c"]]
    f.IsWritable ∧ g.IsWritable ∧ f.Alike g ∧ f.normalize = g.normalize ∧
      ∀ cap, (∃ s t, f.simplify (some cap) = .ok s ∧ g.simplify (some cap) = .ok t ∧
          s.formula = t.formula) ∨
        (f.simplify (some cap) = .error ⟨cap⟩ ∧ g.simplify (some cap) = .error ⟨cap⟩) := by
  intro f g
  have hf : f.IsWritable := by decide
  have hg : g.IsWritable := by decide
  have hgroup : f.Alike (.nary .or
      [.nary .and [.var "b", .var "a"], .nary .and [.var "c", .var "a"], .const false]) :=
    alike_of_flat_eq rfl
  have horder : Alike
      (.nary .or [.nary .and [.var "b", .var "a"], .nary .and [.var "c", .var "a"], .const false])
      (.nary .or [.const false, .nary .and [.var "b", .var "a"], .nary .and [.var "c", .var "a"]]) :=
    alike_of_perm (by decide)
  have hinner : Alike (.nary .and [.var "c", .var "a"]) (.nary .and [.var "a", .var "c"]) :=
    alike_of_perm (by decide)
  have hlast : Alike
      (.nary .or [.const false, .nary .and [.var "b", .var "a"], .nary .and [.var "c", .var "a"]])
      g :=
    hinner.operand (by decide) (by decide) .or [.const false, .nary .and [.var "b", .var "a"]] []
  have halike : f.Alike g := (hgroup.trans horder).trans hlast
  exact ⟨hf, hg, halike, normalize_eq_and_simplify_of_alike hf hg halike⟩

end BooleanSteps.Formula
