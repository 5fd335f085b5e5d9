import BooleanSteps.Formula.Flat
import BooleanSteps.Proofs.Normality

/-!
# Flat formulas

Flattening leaves no node with fewer than two operands and no node among the operands of
its own kind, and it changes no formula that is so. In such formulas taking in the operands
of a node and collapsing them again are inverse to each other.
-/

namespace BooleanSteps.Formula

/-- The root is as it is in a flat formula. -/
def FlatNode : Formula → Prop
  | .nary c fs => 2 ≤ fs.length ∧ ∀ f ∈ fs, f.operands? c = none
  | _ => True

/-- The formula is flat. -/
def IsFlat (f : Formula) : Prop := f.Everywhere FlatNode

@[simp] theorem isFlat_const (value : Bool) : IsFlat (.const value) := trivial

@[simp] theorem isFlat_var (name : String) : IsFlat (.var name) := trivial

@[simp] theorem isFlat_not {f : Formula} : IsFlat (.not f) ↔ f.IsFlat := by
  simp [IsFlat, FlatNode]

@[simp] theorem isFlat_nary {c : Connective} {fs : List Formula} :
    IsFlat (.nary c fs) ↔
      (2 ≤ fs.length ∧ ∀ f ∈ fs, f.operands? c = none) ∧ ∀ f ∈ fs, f.IsFlat := by
  simp [IsFlat, FlatNode]

@[simp] theorem isFlat_xor {l r : Formula} : IsFlat (.xor l r) ↔ l.IsFlat ∧ r.IsFlat := by
  simp [IsFlat, FlatNode]

theorem IsNormal.isFlat {f : Formula} (h : f.IsNormal) : f.IsFlat := by
  induction f with
  | const value => exact isFlat_const value
  | var name => exact isFlat_var name
  | not f ih => exact isFlat_not.mpr (ih (isNormal_not.mp h))
  | nary c fs ih =>
      obtain ⟨hroot, hfs⟩ := isNormal_nary.mp h
      exact isFlat_nary.mpr ⟨⟨hroot.two_le, hroot.not_nested⟩, fun f hf => ih f hf (hfs f hf)⟩
  | xor l r ihl ihr =>
      obtain ⟨hl, hr⟩ := isNormal_xor.mp h
      exact isFlat_xor.mpr ⟨ihl hl, ihr hr⟩

/-! ## Taking in and collapsing -/

theorem IsFlat.of_mem_splice {c : Connective} {f g : Formula} (hf : f.IsFlat)
    (hg : g ∈ splice c f) : g.IsFlat ∧ g.operands? c = none := by
  rcases mem_splice_iff.mp hg with ⟨rfl, hnone⟩ | ⟨fs, rfl, hmem⟩
  · exact ⟨hf, hnone⟩
  · obtain ⟨⟨-, hnested⟩, hfs⟩ := isFlat_nary.mp hf
    exact ⟨hfs g hmem, hnested g hmem⟩

theorem IsFlat.collapse_splice {f : Formula} (hf : f.IsFlat) (c : Connective) :
    collapse c (splice c f) = f := by
  rcases splice_eq c f with ⟨heq, -⟩ | ⟨fs, rfl, heq⟩
  · rw [heq, collapse_singleton]
  · rw [heq, collapse_eq_nary (isFlat_nary.mp hf).1.1]

theorem splice_ne_nil {f : Formula} (hf : f.IsFlat) (c : Connective) : splice c f ≠ [] := by
  rcases splice_eq c f with ⟨heq, -⟩ | ⟨fs, rfl, heq⟩
  · rw [heq]
    exact List.cons_ne_nil f []
  · rw [heq]
    rintro rfl
    exact absurd (isFlat_nary.mp hf).1.1 (by decide)

theorem splice_collapse {c : Connective} {fs : List Formula} (hne : fs ≠ [])
    (hnested : ∀ f ∈ fs, f.operands? c = none) : splice c (collapse c fs) = fs := by
  match fs, hne with
  | [f], _ => exact splice_of_operands?_eq_none (hnested f List.mem_cons_self)
  | f :: g :: fs, _ => exact splice_nary c (f :: g :: fs)

theorem collapse_isFlat {c : Connective} {fs : List Formula}
    (h : ∀ f ∈ fs, f.IsFlat ∧ f.operands? c = none) : (collapse c fs).IsFlat := by
  refine collapse_cases c fs ?_ ?_ ?_
  · exact fun _ => isFlat_const _
  · rintro f rfl
    exact (h f List.mem_cons_self).1
  · intro hlength
    exact isFlat_nary.mpr ⟨⟨hlength, fun f hf => (h f hf).2⟩, fun f hf => (h f hf).1⟩

theorem of_mem_flatMap_splice {c : Connective} {fs : List Formula} (h : ∀ f ∈ fs, f.IsFlat)
    {g : Formula} (hg : g ∈ fs.flatMap (splice c)) : g.IsFlat ∧ g.operands? c = none := by
  obtain ⟨f, hf, hmem⟩ := List.mem_flatMap.mp hg
  exact (h f hf).of_mem_splice hmem

theorem flat_isFlat (f : Formula) : f.flat.IsFlat := by
  induction f with
  | const value => exact isFlat_const value
  | var name => exact isFlat_var name
  | not f ih => exact isFlat_not.mpr ih
  | nary c fs ih =>
      rw [flat_nary]
      refine collapse_isFlat fun g hg => of_mem_flatMap_splice ?_ hg
      intro f hf
      obtain ⟨f', hf', rfl⟩ := List.mem_map.mp hf
      exact ih f' hf'
  | xor l r ihl ihr => exact isFlat_xor.mpr ⟨ihl, ihr⟩

theorem IsFlat.flat_eq {f : Formula} (h : f.IsFlat) : f.flat = f := by
  induction f with
  | const value => rfl
  | var name => rfl
  | not f ih => rw [flat_not, ih (isFlat_not.mp h)]
  | nary c fs ih =>
      obtain ⟨⟨hlength, hnested⟩, hfs⟩ := isFlat_nary.mp h
      have hmap : fs.map flat = fs := by
        rw [List.map_congr_left fun f hf => ih f hf (hfs f hf), List.map_id']
      rw [flat_nary, hmap, flatMap_splice_of_not_nested hnested, collapse_eq_nary hlength]
  | xor l r ihl ihr =>
      obtain ⟨hl, hr⟩ := isFlat_xor.mp h
      rw [flat_xor, ihl hl, ihr hr]

/-- A chain of flat operands stands for the flat node of them. -/
theorem join_eq_collapse {c : Connective} {fs : List Formula} (hne : fs ≠ [])
    (h : ∀ f ∈ fs, f.IsFlat) : join c fs = collapse c (fs.flatMap (splice c)) := by
  match fs, hne with
  | [f], _ =>
      rw [List.flatMap_singleton, (h f List.mem_cons_self).collapse_splice]
      rfl
  | f :: g :: fs, _ =>
      have hf := List.length_pos_iff.mpr (splice_ne_nil (h f (by simp)) c)
      have hg := List.length_pos_iff.mpr (splice_ne_nil (h g (by simp)) c)
      rw [collapse_eq_nary]
      · rfl
      · simp only [List.flatMap_cons, List.length_append]
        omega

end BooleanSteps.Formula
