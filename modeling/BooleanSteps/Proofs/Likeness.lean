import BooleanSteps.Explanation
import BooleanSteps.Proofs.FlatForm
import BooleanSteps.Proofs.KeyDecoding
import BooleanSteps.Proofs.Occurrences

/-!
# Formulas that are alike

Formulas that differ in the order and the grouping of operands only stay so in every
context. Behind this is that keys can be read back: equal keys of nodes come from operands
with equal keys, so what two formulas contribute to a node around them is the same.
-/

namespace BooleanSteps.Formula

/-! ## Flattening -/

theorem names_flat (f : Formula) : f.flat.names = f.names := by
  induction f with
  | const value | var name => rfl
  | not f ih => exact ih
  | nary c fs ih =>
      rw [flat_nary, names_collapse, List.flatMap_assoc, funext (flatMap_names_splice c),
        List.flatMap_map, names_nary, List.flatMap_def, List.map_congr_left ih, List.flatMap_def]
  | xor l r ihl ihr => rw [flat_xor, names, names, ihl, ihr]

theorem IsWritable.flat {f : Formula} (h : f.IsWritable) : f.flat.IsWritable := by
  intro name hname
  rw [names_flat] at hname
  exact h name hname

/-- Collapsing is grouping. -/
theorem flat_collapse (c : Connective) (fs : List Formula) :
    (collapse c fs).flat = flat (.nary c fs) := by
  match fs with
  | [] => rfl
  | [f] =>
      rw [collapse_singleton, flat_nary, List.map_singleton, List.flatMap_singleton,
        f.flat_isFlat.collapse_splice]
  | f :: g :: fs => rfl

/-- Taking in the operands of flat operands is grouping. -/
theorem flat_nary_flatMap_splice {c : Connective} {fs : List Formula} (h : ∀ f ∈ fs, f.IsFlat) :
    flat (.nary c (fs.flatMap (splice c))) = flat (.nary c fs) := by
  have hspliced : ∀ g ∈ fs.flatMap (splice c), g.IsFlat ∧ g.operands? c = none :=
    fun g hg => of_mem_flatMap_splice h hg
  have hmap (gs : List Formula) (hgs : ∀ g ∈ gs, g.IsFlat) : gs.map flat = gs := by
    rw [List.map_congr_left fun g hg => (hgs g hg).flat_eq, List.map_id']
  rw [flat_nary, flat_nary, hmap fs h, hmap _ fun g hg => (hspliced g hg).1,
    flatMap_splice_of_not_nested fun g hg => (hspliced g hg).2]

/-! ## Keys of nodes -/

theorem key_collapse_perm {c : Connective} {fs gs : List Formula}
    (h : (fs.map key).Perm (gs.map key)) : (collapse c fs).key = (collapse c gs).key := by
  have hlength : fs.length = gs.length := by simpa using h.length_eq
  match fs, gs, hlength with
  | [], [], _ => rfl
  | [f], [g], _ => simpa using h
  | f :: f' :: fs, g :: g' :: gs, _ =>
      rw [collapse_eq_nary (by simp), collapse_eq_nary (by simp), key_nary, key_nary,
        sortTexts_perm h]

/-- Formulas with the same key contribute operands with the same keys to a node. -/
theorem perm_keys_splice {c : Connective} {f g : Formula} (hf : f.IsWritable) (hg : g.IsWritable)
    (h : f.key = g.key) : ((splice c f).map key).Perm ((splice c g).map key) := by
  rcases splice_eq c f with ⟨heq, hnone⟩ | ⟨fs, rfl, heq⟩
  · rcases splice_eq c g with ⟨heq', -⟩ | ⟨gs, rfl, heq'⟩
    · rw [heq, heq', List.map_singleton, List.map_singleton, h]
    · -- Only nodes of the connective have the key of one.
      obtain ⟨fs, rfl, -⟩ := exists_nary_of_key_eq hf hg h
      simp at hnone
  · obtain ⟨gs, rfl, hperm⟩ := exists_nary_of_key_eq hg hf h.symm
    rw [heq, splice_nary]
    exact hperm.symm

/-! ## Alike as a whole -/

theorem alike_of_flat_eq {f g : Formula} (h : f.flat = g.flat) : f.Alike g := congrArg key h

theorem alike_of_perm {c : Connective} {fs gs : List Formula} (h : fs.Perm gs) :
    Alike (.nary c fs) (.nary c gs) := by
  unfold Alike
  rw [flat_nary, flat_nary]
  exact key_collapse_perm (((h.map flat).flatMap_right (splice c)).map key)

/-! ## In a context -/

theorem Alike.not {f g : Formula} (h : f.Alike g) : Alike (.not f) (.not g) := by
  unfold Alike at h ⊢
  rw [flat_not, flat_not, key, key, h]

theorem Alike.xor {l r l' r' : Formula} (hl : l.Alike l') (hr : r.Alike r') :
    Alike (.xor l r) (.xor l' r') := by
  unfold Alike at hl hr ⊢
  rw [flat_xor, flat_xor, key, key, hl, hr]

theorem Alike.operand {f g : Formula} (hf : f.IsWritable) (hg : g.IsWritable) (h : f.Alike g)
    (c : Connective) (before after : List Formula) :
    Alike (.nary c (before ++ f :: after)) (.nary c (before ++ g :: after)) := by
  have hsplice := perm_keys_splice (c := c) hf.flat hg.flat h
  unfold Alike
  rw [flat_nary, flat_nary]
  apply key_collapse_perm
  simp only [List.map_append, List.map_cons, List.flatMap_append, List.flatMap_cons]
  exact (List.Perm.append_right _ hsplice).append_left _

/-- What is put in place of a part may be any formula like it. -/
theorem Alike.fill {f g : Formula} (hf : f.IsWritable) (hg : g.IsWritable) (h : f.Alike g)
    {place : Context} (hplace : place.IsWritable) : (place.fill f).Alike (place.fill g) := by
  induction place with
  | hole => exact h
  | not inner ih => exact Alike.not (ih hplace)
  | nary c before inner after ih =>
      obtain ⟨-, hinner, -⟩ := hplace
      exact Alike.operand (hinner.fill hf) (hinner.fill hg) (ih hinner) c before after
  | xorLeft inner right ih => exact Alike.xor (ih hplace.1) (Alike.refl right)
  | xorRight left inner ih => exact Alike.xor (Alike.refl left) (ih hplace.2)

end BooleanSteps.Formula
