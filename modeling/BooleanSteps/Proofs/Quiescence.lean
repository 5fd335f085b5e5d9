import BooleanSteps.Proofs.RootLaws

/-!
# Quiet formulas

A formula is quiet if a reduction step applies no law anywhere in it. The step then
gives back the formula itself, and at no node a law is found.
-/

namespace BooleanSteps.Formula

/-- A reduction step applies no law. -/
def IsQuiet (f : Formula) : Prop := f.stepDerived.applications = []

instance (f : Formula) : Decidable f.IsQuiet := inferInstanceAs (Decidable (_ = []))

/-! ## Reduction at the root -/

theorem reduceRoot_of_none {f : Formula} (h : f.rootLaw? = none) : f.reduceRoot = pure f := by
  unfold reduceRoot
  rw [h]

theorem reduceRoot_of_some {f g : Formula} {law : Law} (h : f.rootLaw? = some (law, g)) :
    f.reduceRoot = .applying law f g := by
  unfold reduceRoot
  rw [h]

theorem applications_reduceRoot_eq_nil_iff {f : Formula} :
    f.reduceRoot.applications = [] ↔ f.rootLaw? = none := by
  cases h : f.rootLaw? with
  | none => simp [reduceRoot_of_none h]
  | some answer =>
      obtain ⟨law, g⟩ := answer
      simp [reduceRoot_of_some h]

/-! ## Applications of a step -/

theorem applications_stepDerived_not (f : Formula) :
    (stepDerived (.not f)).applications =
      f.stepDerived.applications ++ (reduceRoot (.not f.step)).applications := rfl

theorem applications_stepDerived_nary (c : Connective) (fs : List Formula) :
    (stepDerived (.nary c fs)).applications =
      fs.flatMap (·.stepDerived.applications) ++
        (reduceRoot (.nary c (fs.map step))).applications := by
  simp [stepDerived]

theorem applications_stepDerived_xor (l r : Formula) :
    (stepDerived (.xor l r)).applications =
      l.stepDerived.applications ++ (r.stepDerived.applications ++
        (reduceRoot (.xor l.step r.step)).applications) := rfl

theorem map_step_eq_self {fs : List Formula} (h : ∀ f ∈ fs, f.step = f) : fs.map step = fs := by
  rw [List.map_congr_left (g := id) h]
  exact List.map_id fs

/-- Without laws nothing changes. -/
theorem IsQuiet.step_eq {f : Formula} (h : f.IsQuiet) : f.step = f := by
  induction f with
  | const value => rfl
  | var name => rfl
  | not f ih =>
      unfold IsQuiet at h
      rw [applications_stepDerived_not, List.append_eq_nil_iff] at h
      obtain ⟨hf, hroot⟩ := h
      rw [applications_reduceRoot_eq_nil_iff] at hroot
      rw [step_not, reduceRoot_of_none hroot, Derived.value_pure, ih hf]
  | nary c fs ih =>
      unfold IsQuiet at h
      rw [applications_stepDerived_nary, List.append_eq_nil_iff, List.flatMap_eq_nil_iff] at h
      obtain ⟨hfs, hroot⟩ := h
      rw [applications_reduceRoot_eq_nil_iff] at hroot
      rw [step_nary, reduceRoot_of_none hroot, Derived.value_pure,
        map_step_eq_self fun f hf => ih f hf (hfs f hf)]
  | xor l r ihl ihr =>
      unfold IsQuiet at h
      rw [applications_stepDerived_xor, List.append_eq_nil_iff, List.append_eq_nil_iff] at h
      obtain ⟨hl, hr, hroot⟩ := h
      rw [applications_reduceRoot_eq_nil_iff] at hroot
      rw [step_xor, reduceRoot_of_none hroot, Derived.value_pure, ihl hl, ihr hr]

/-! ## Quiet nodes -/

@[simp] theorem isQuiet_const (value : Bool) : IsQuiet (.const value) := rfl

@[simp] theorem isQuiet_var (name : String) : IsQuiet (.var name) := rfl

theorem isQuiet_not {f : Formula} : IsQuiet (.not f) ↔ f.IsQuiet ∧ f.negationLaw? = none := by
  unfold IsQuiet
  rw [applications_stepDerived_not, List.append_eq_nil_iff, applications_reduceRoot_eq_nil_iff]
  refine and_congr_right fun h => ?_
  rw [IsQuiet.step_eq h]
  rfl

theorem isQuiet_nary {c : Connective} {fs : List Formula} :
    IsQuiet (.nary c fs) ↔ (∀ f ∈ fs, f.IsQuiet) ∧ connectiveLaw? c fs = none := by
  unfold IsQuiet
  rw [applications_stepDerived_nary, List.append_eq_nil_iff, List.flatMap_eq_nil_iff,
    applications_reduceRoot_eq_nil_iff]
  refine and_congr_right fun h => ?_
  rw [map_step_eq_self fun f hf => IsQuiet.step_eq (h f hf)]
  rfl

theorem isQuiet_xor {l r : Formula} :
    IsQuiet (.xor l r) ↔ l.IsQuiet ∧ r.IsQuiet ∧ xorLaw? l r = none := by
  unfold IsQuiet
  rw [applications_stepDerived_xor, List.append_eq_nil_iff, List.append_eq_nil_iff,
    applications_reduceRoot_eq_nil_iff]
  refine and_congr_right fun hl => and_congr_right fun hr => ?_
  rw [IsQuiet.step_eq hl, IsQuiet.step_eq hr]
  rfl

end BooleanSteps.Formula
