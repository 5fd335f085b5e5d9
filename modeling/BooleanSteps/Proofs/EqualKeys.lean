import Mathlib.Data.List.Perm.Basic
import BooleanSteps.Formula.Rearrangement
import BooleanSteps.Proofs.Soundness

/-!
# Equal keys

Rearranging a formula does not change its key. The other direction needs names that can be
written: there the key shows the root and, up to order, the keys of the operands, so two
formulas with one key are rearrangements of each other, operand by operand.
-/

namespace BooleanSteps.Formula

variable {f g : Formula} {c : Connective} {fs gs : List Formula}

/-! ## From rearrangements to keys -/

theorem Rearranges.key_eq (h : f.Rearranges g) : f.key = g.key := by
  induction h with
  | refl f => rfl
  | trans _ _ ihf ihg => exact ihf.trans ihg
  | not _ ih => rw [key, key, ih]
  | xor _ _ ihl ihr => rw [key, key, ihl, ihr]
  | operand c before after _ ih =>
      rw [key_nary, key_nary, List.map_append, List.map_append, List.map_cons, List.map_cons, ih]
  | perm c h => exact key_nary_perm c h

/-- A rearrangement has the same variables, each as often. -/
theorem Rearranges.names_perm (h : f.Rearranges g) : f.names.Perm g.names := by
  induction h with
  | refl f => exact List.Perm.refl _
  | trans _ _ ihf ihg => exact ihf.trans ihg
  | not _ ih => exact ih
  | xor _ _ ihl ihr => exact ihl.append ihr
  | operand c before after _ ih =>
      simp only [names_nary, List.flatMap_append, List.flatMap_cons]
      exact (ih.append_right _).append_left _
  | perm c h =>
      rw [names_nary, names_nary]
      exact h.flatMap_right names

/-! ## From keys to rearrangements -/

/-- Operands with the same keys in the same order are rearranged one after the other. -/
theorem rearranges_behind (h : ∀ f ∈ fs, ∀ g ∈ gs, f.key = g.key → f.Rearranges g)
    (hkeys : fs.map key = gs.map key) (before : List Formula) :
    Rearranges (.nary c (before ++ fs)) (.nary c (before ++ gs)) := by
  induction fs generalizing gs before with
  | nil =>
      rw [List.map_nil, eq_comm, List.map_eq_nil_iff] at hkeys
      subst hkeys
      exact .refl _
  | cons f fs ih =>
      cases gs with
      | nil => cases hkeys
      | cons g gs =>
          obtain ⟨hkey, hkeys⟩ := List.cons.inj hkeys
          have hfirst : f.Rearranges g := h f List.mem_cons_self g List.mem_cons_self hkey
          have hrest := ih (fun f hf g hg =>
            h f (List.mem_cons_of_mem _ hf) g (List.mem_cons_of_mem _ hg)) hkeys (before ++ [g])
          rw [List.append_assoc, List.append_assoc] at hrest
          exact (Rearranges.operand c before fs hfirst).trans hrest

/-- Operands whose keys agree in some order can be put into the order of the others. -/
theorem exists_perm_map_key_eq (h : (fs.map key).Perm (gs.map key)) :
    ∃ hs : List Formula, fs.map key = hs.map key ∧ hs.Perm gs := by
  have hcomp : Relation.Comp (fun keys hs => keys = List.map key hs) List.Perm (fs.map key) gs := by
    rw [List.eq_map_comp_perm]
    exact h
  exact hcomp

theorem rearranges_of_key_eq (hf : f.IsWritable) (hg : g.IsWritable) (h : f.key = g.key) :
    f.Rearranges g := by
  induction f generalizing g with
  | const value =>
      rw [eq_const_of_key_eq h.symm]
      exact .refl _
  | var name =>
      rw [eq_var_of_key_eq h.symm]
      exact .refl _
  | not f ih =>
      obtain ⟨g', rfl, hkey⟩ := exists_not_of_key_eq h.symm
      exact .not (ih (isWritable_not.mp hf) (isWritable_not.mp hg) hkey.symm)
  | nary c fs ih =>
      obtain ⟨gs, rfl, hperm⟩ := exists_nary_of_key_eq hg hf h.symm
      rw [isWritable_nary] at hf hg
      -- First every operand becomes the one of its key, then these are put in order.
      obtain ⟨hs, hkeys, horder⟩ := exists_perm_map_key_eq hperm.symm
      have hoperands : Rearranges (.nary c fs) (.nary c hs) := by
        refine rearranges_behind ?_ hkeys []
        intro f hmem k hk hkey
        exact ih f hmem (hf f hmem) (hg k (horder.mem_iff.mp hk)) hkey
      exact hoperands.trans (.perm c horder)
  | xor l r ihl ihr =>
      obtain ⟨l', r', rfl, hl, hr⟩ := exists_xor_of_key_eq hg hf h.symm
      rw [isWritable_xor] at hf hg
      exact .xor (ihl hf.1 hg.1 hl.symm) (ihr hf.2 hg.2 hr.symm)

/-! ## Equivalence -/

/-- Formulas are equivalent, that is, have the same key, exactly if one is a rearrangement
of the other. Then every interpretation of the variables of one evaluates both, and to the
same value. -/
theorem equivalent_iff_rearranges (hf : f.IsWritable) (hg : g.IsWritable) :
    (f.equivalent g = true ↔ f.key = g.key) ∧ (f.key = g.key ↔ f.Rearranges g) ∧
      (f.key = g.key → ∀ i : Interpretation, i.Binds f.vars →
        ∃ value, f.evaluate i = .ok value ∧ g.evaluate i = .ok value) := by
  have hkeys : f.key = g.key ↔ f.Rearranges g :=
    ⟨rearranges_of_key_eq hf hg, Rearranges.key_eq⟩
  refine ⟨equivalent_iff, hkeys, ?_⟩
  intro hkey i hi
  have hnames : g.names.Perm f.names := (hkeys.mp hkey).names_perm.symm
  refine ⟨f.truth i.assignment, ?_, ?_⟩
  · exact evaluate_eq_of_count_le hi (fun _ => Nat.le_refl _) rfl
  · apply evaluate_eq_of_count_le hi
    · exact fun name => Nat.le_of_eq (hnames.count_eq name)
    · exact truth_eq_of_key_eq hg hf hkey.symm

theorem equivalent_iff_rearranges_nested :
    let f : Formula := .nary .and [.nary .or [.var "b", .nary .and []], .not (.var "a")]
    let g : Formula := .nary .and [.not (.var "a"), .nary .or [.nary .and [], .var "b"]]
    let i : Interpretation := ⟨[("a", false), ("b", false)]⟩
    f.IsWritable ∧ g.IsWritable ∧ f.Rearranges g ∧ f.key = g.key ∧ f.equivalent g = true ∧
      i.Binds f.vars ∧ ∃ value, f.evaluate i = .ok value ∧ g.evaluate i = .ok value := by
  intro f g i
  have hf : f.IsWritable := by decide
  have hg : g.IsWritable := by decide
  have hi : i.Binds f.vars := by decide
  have hrearranges : f.Rearranges g :=
    (Rearranges.operand .and [] [.not (.var "a")] (.perm .or (List.Perm.swap _ _ _))).trans
      (.perm .and (List.Perm.swap _ _ _))
  obtain ⟨hequivalent, hkeys, hevaluate⟩ := equivalent_iff_rearranges hf hg
  have hkey : f.key = g.key := hkeys.mpr hrearranges
  exact ⟨hf, hg, hrearranges, hkey, hequivalent.mpr hkey, hi, hevaluate hkey i hi⟩

end BooleanSteps.Formula
