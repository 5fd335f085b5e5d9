import BooleanSteps.Proofs.DualLaws
import BooleanSteps.Proofs.Likeness

/-!
# AND and OR are treated alike

A reduction step of the dual formula is the dual of the reduction step, law by law. The normal
forms of a formula and of its dual are dual only up to the order of operands, since the texts that
operands are sorted by are not dual; what normalization makes of a node depends, up to this
order, on the keys of its operands alone.
-/

namespace BooleanSteps.Formula

variable {f g : Formula} {c : Connective} {fs gs : List Formula}

/-! ## Keys of the operands that are kept -/

theorem const_mem_of_perm_keys (h : (fs.map key).Perm (gs.map key)) {value : Bool}
    (hmem : .const value ∈ fs) : .const value ∈ gs := by
  obtain ⟨g, hg, hkey⟩ := exists_mem_of_perm_keys h hmem
  rwa [← eq_const_of_key_eq hkey]

/-- Only constants have the key of a constant, so to leave out a constant is to leave out a key. -/
theorem map_key_filter_ne_const (value : Bool) (fs : List Formula) :
    (fs.filter (· ≠ .const value)).map key = (fs.map key).filter (· ≠ key (.const value)) := by
  rw [List.filter_map]
  refine congrArg _ (List.filter_congr fun f _ => ?_)
  rw [Function.comp, decide_eq_decide]
  exact not_congr ⟨fun h => h ▸ rfl, eq_const_of_key_eq⟩

theorem mem_map_key_distinct_iff {text : String} :
    text ∈ (distinct fs).map key ↔ text ∈ fs.map key := by
  rw [List.mem_map, List.mem_map]
  constructor
  · rintro ⟨f, hf, rfl⟩
    exact ⟨f, mem_of_mem_distinct hf, rfl⟩
  · rintro ⟨f, hf, rfl⟩
    exact exists_mem_distinct hf

theorem perm_keys_distinct (h : (fs.map key).Perm (gs.map key)) :
    ((distinct fs).map key).Perm ((distinct gs).map key) := by
  have hnodup (hs : List Formula) : ((distinct hs).map key).Nodup :=
    List.pairwise_map.mpr (pairwise_distinct hs)
  rw [List.perm_ext_iff_of_nodup (hnodup fs) (hnodup gs)]
  intro text
  rw [mem_map_key_distinct_iff, mem_map_key_distinct_iff, h.mem_iff]

/-! ## Keys of normalized nodes -/

/-- The key of a normalized node depends on the keys of its operands alone. -/
theorem key_normalizeNode_congr (h : (fs.map key).Perm (gs.map key)) :
    (normalizeNode c fs).value.key = (normalizeNode c gs).value.key := by
  rw [value_normalizeNode, value_normalizeNode]
  by_cases habsorbing : .const c.absorbing ∈ fs
  · rw [if_pos habsorbing, if_pos (const_mem_of_perm_keys h habsorbing)]
  · rw [if_neg habsorbing, if_neg (mt (const_mem_of_perm_keys h.symm) habsorbing)]
    apply key_collapse_perm
    have hproper : ((fs.filter (· ≠ .const c.neutral)).map key).Perm
        ((gs.filter (· ≠ .const c.neutral)).map key) := by
      rw [map_key_filter_ne_const, map_key_filter_ne_const]
      exact h.filter _
    have hsorted (hs : List Formula) : ((sortOperands hs).map key).Perm (hs.map key) :=
      (sortOperands_perm hs).map key
    exact (hsorted _).trans ((perm_keys_distinct hproper).trans (hsorted _).symm)

theorem key_normalizeNode_dual (hfs : ∀ f ∈ fs, f.IsWritable) :
    (normalizeNode c.dual (fs.map dual)).value.key = (normalizeNode c fs).value.dual.key := by
  rw [value_normalizeNode, value_normalizeNode]
  by_cases habsorbing : .const c.absorbing ∈ fs
  · rw [if_pos habsorbing, if_pos (const_absorbing_mem_map_dual_iff.mpr habsorbing), dual_const,
      c.not_absorbing_eq]
  · rw [if_neg habsorbing, if_neg (mt const_absorbing_mem_map_dual_iff.mp habsorbing),
      filter_ne_neutral_map_dual, distinct_map_dual fun f hf => hfs f (List.mem_filter.mp hf).1,
      ← collapse_map_dual]
    apply key_collapse_perm
    have hperm (hs : List Formula) :
        (sortOperands (hs.map dual)).Perm ((sortOperands hs).map dual) :=
      (sortOperands_perm _).trans ((sortOperands_perm hs).map dual).symm
    exact (hperm _).map key

/-! ## Normal forms -/

/-- The normal form of the dual is the dual of the normal form, up to the order of operands. -/
theorem key_normalize_dual (hf : f.IsWritable) : f.dual.normalize.key = f.normalize.dual.key := by
  induction f with
  | const value | var name => rfl
  | not f ih => rw [dual_not, normalize_not, normalize_not, dual_not, key, key, ih hf]
  | nary c fs ih =>
      have hfs := isWritable_nary.mp hf
      have hspliced : ∀ g ∈ (fs.map normalize).flatMap (splice c), g.IsWritable := fun g hg =>
        isWritable_of_mem_flatMap_splice
          (List.forall_mem_map.mpr fun f hmem => (hfs f hmem).normalize) hg
      rw [dual_nary, normalize_nary, normalize_nary, ← key_normalizeNode_dual hspliced]
      apply key_normalizeNode_congr
      simp only [List.map_flatMap, List.flatMap_map, ← splice_dual]
      apply List.Perm.flatMap_left
      intro f hmem
      exact perm_keys_splice (hfs f hmem).dual.normalize (hfs f hmem).normalize.dual
        (ih f hmem (hfs f hmem))
  | xor l r ihl ihr =>
      obtain ⟨hl, hr⟩ := isWritable_xor.mp hf
      rw [dual_xor, normalize_xor, normalize_xor, dual_xor, key, key, ihl hl, ihr hr]

/-- Reduction and normalization treat AND and OR symmetrically: a step of the dual formula gives
the dual of what it gives for the formula and applies the dual laws, in the same order and to
the dual formulas, and normalizing the dual formula gives the dual up to the order of operands. -/
theorem stepDerived_dual_and_key_normalize_dual (hf : f.IsWritable) (hxor : f.XorFree) :
    f.dual.step = f.step.dual ∧
      f.dual.stepDerived.applications = f.stepDerived.applications.map Application.dual ∧
      f.dual.normalize.key = f.normalize.dual.key :=
  ⟨step_dual hf hxor, applications_stepDerived_dual hf hxor, key_normalize_dual hf⟩

/-- An operand in parentheses is sorted first, and duality takes the parentheses away. -/
theorem stepDerived_dual_and_key_normalize_dual_common_factor :
    let f : Formula := .nary .or
      [.nary .and [.nary .or [.var "b", .var "c"], .var "d"], .nary .and [.var "a", .var "d"]]
    let factored : Formula := .nary .and
      [.var "d", .nary .or [.nary .or [.var "b", .var "c"], .var "a"]]
    f.IsWritable ∧ f.XorFree ∧
      f.stepDerived.applications = [⟨.distribution .or, f, factored⟩] ∧
      f.dual.step = f.step.dual ∧
      f.dual.stepDerived.applications = f.stepDerived.applications.map Application.dual ∧
      f.dual.normalize.key = f.normalize.dual.key ∧ f.dual.normalize ≠ f.normalize.dual := by
  intro f factored
  have hf : f.IsWritable := by decide
  have hxor : f.XorFree := by simp [f, XorFree]
  have hlaws : f.stepDerived.applications = [⟨.distribution .or, f, factored⟩] := by cbv
  have hnormal : f.normalize = f := by cbv
  obtain ⟨hstep, happlications, hkey⟩ := stepDerived_dual_and_key_normalize_dual hf hxor
  refine ⟨hf, hxor, hlaws, hstep, happlications, hkey, ?_⟩
  rw [hnormal]
  intro heq
  have hsorted : f.dual.IsNormal := heq ▸ normalize_isNormal f.dual
  have hle := List.rel_of_pairwise_cons (isNormal_nary.mp hsorted).1.sorted
    (List.mem_singleton_self _)
  exact absurd hle (by decide)

end BooleanSteps.Formula
