import Mathlib.Data.List.Permutation
import BooleanSteps.Proofs.Quiescence
import BooleanSteps.Proofs.Soundness

/-!
# Applied laws are justified

An application names a law and two formulas. Of every application that is made, whether it
changes the printed text or not, and also in a pass that is dropped or for which the limit
leaves no room, it is shown that the formulas are an instance of the law, that no variable
comes in and that the value stays.
-/

namespace BooleanSteps

open Formula

/-- The two formulas are an instance of the law, the second has no variable that the first
has not, and both have the same value wherever the first one's variables have values. -/
structure Application.IsJustified (a : Application) : Prop where
  relates : a.law.Relates a.before a.after
  vars_subset : ∀ name ∈ a.after.vars, name ∈ a.before.vars
  evaluate_eq : ∀ i : Interpretation, i.Binds a.before.vars →
    ∃ value, a.before.evaluate i = .ok value ∧ a.after.evaluate i = .ok value

/-- An instance of a law keeps variables and value of a formula that can be written. -/
theorem Law.Relates.isJustified {law : Law} {f g : Formula} (h : law.Relates f g)
    (hf : f.IsWritable) : (⟨law, f, g⟩ : Application).IsJustified where
  relates := h
  vars_subset := by
    intro name hname
    rw [mem_vars] at hname ⊢
    exact mem_names_of_count_le h.count_names_le hname
  evaluate_eq := by
    intro i hi
    refine ⟨f.truth i.assignment, ?_, ?_⟩
    · exact evaluate_eq_of_count_le hi (fun _ => Nat.le_refl _) rfl
    · exact evaluate_eq_of_count_le hi h.count_names_le (h.truth_eq hf)

/-! ## Runs -/

/-- The laws that a run applies in all its passes, also in the one that ends it. -/
def Run.applications : Run → List Application
  | settled _ last => last.applications
  | exhausted last => last.applications
  | changed first rest => first.applications ++ rest.applications

/-- A result comes with the laws of the changing passes, which are applied first. -/
theorem Run.applications_startsWith {run : Run} {d : Derived Formula} (h : run.result? = some d) :
    d.applications <+: run.applications := by
  induction run generalizing d with
  | settled result last =>
      cases h
      exact List.nil_prefix
  | exhausted last => cases h
  | changed first rest ih =>
      obtain ⟨inner, hinner, rfl⟩ := Option.map_eq_some_iff.mp h
      exact (List.prefix_append_right_inj _).mpr (ih hinner)

namespace Formula

variable {f : Formula} {a : Application}

/-- The laws that are applied while the formula is simplified, whether this succeeds or not. -/
def simplifyApplications (f : Formula) (given : Option Nat) : List Application :=
  f.normalizeDerived.applications ++ (f.run given).applications

theorem simplifyApplications_startsWith {given : Option Nat} {d : Derived Formula}
    (h : f.simplifyDerived? given = some d) :
    d.applications <+: f.simplifyApplications given := by
  obtain ⟨result, hresult, rfl⟩ := Option.map_eq_some_iff.mp h
  exact (List.prefix_append_right_inj _).mpr (Run.applications_startsWith hresult)

/-- Every step of a result is one of these applications. -/
theorem exists_application_of_mem_steps {given : Option Nat} {s : Simplification}
    (h : f.simplify given = .ok s) {step : Step} (hstep : step ∈ s.steps) :
    ∃ a ∈ f.simplifyApplications given, a.step? = some step := by
  unfold simplify at h
  split at h
  next d hd =>
    cases h
    obtain ⟨a, ha, hprinted⟩ := List.mem_filterMap.mp hstep
    exact ⟨a, (simplifyApplications_startsWith hd).subset ha, hprinted⟩
  next => cases h

/-! ## Normalization -/

theorem const_neutral_mem_of_length_filter_ne {c : Connective} {fs : List Formula}
    (h : (fs.filter (· ≠ .const c.neutral)).length ≠ fs.length) : .const c.neutral ∈ fs := by
  refine Decidable.byContradiction fun hmem => h ?_
  rw [List.length_filter_eq_length_iff]
  intro f hf
  exact decide_eq_true fun heq => hmem (heq ▸ hf)

theorem isJustified_of_normalizeNode {c : Connective} {fs : List Formula}
    (hfs : ∀ f ∈ fs, f.IsWritable) (ha : a ∈ (normalizeNode c fs).applications) :
    a.IsJustified := by
  unfold normalizeNode at ha
  split at ha
  next habsorbing =>
    obtain rfl := List.mem_singleton.mp ha
    exact (Law.Relates.annulment c fs habsorbing).isJustified (isWritable_nary.mpr hfs)
  next =>
    let proper := fs.filter (· ≠ .const c.neutral)
    have hproper : ∀ f ∈ proper, f.IsWritable := fun f hf => hfs f (List.mem_filter.mp hf).1
    rcases List.mem_append.mp ha with hidentity | hidempotence
    · split at hidentity
      next => exact absurd hidentity List.not_mem_nil
      next hlength =>
        obtain rfl := List.mem_singleton.mp hidentity
        have hmem : .const c.neutral ∈ fs := const_neutral_mem_of_length_filter_ne hlength
        exact (Law.Relates.identity c fs hmem).isJustified (isWritable_nary.mpr hfs)
    · split at hidempotence
      next => exact absurd hidempotence List.not_mem_nil
      next hlength =>
        obtain rfl := List.mem_singleton.mp hidempotence
        have hlt : (distinct proper).length < proper.length :=
          Nat.lt_of_le_of_ne (distinct_sublist proper).length_le hlength
        have hrelates : (Law.idempotence c).Relates (.nary c proper)
            (collapse c (distinct proper)) :=
          .idempotence c proper (distinct proper) _ (thins_distinct proper) hlt (.inr rfl)
        exact hrelates.isJustified (isWritable_nary.mpr hproper)

theorem isJustified_of_normalizeDerived (hf : f.IsWritable)
    (ha : a ∈ f.normalizeDerived.applications) : a.IsJustified := by
  induction f with
  | const value | var name => exact absurd ha List.not_mem_nil
  | not f ih =>
      rw [applications_normalizeDerived_not] at ha
      exact ih (isWritable_not.mp hf) ha
  | nary c fs ih =>
      have hfs := isWritable_nary.mp hf
      rw [applications_normalizeDerived_nary] at ha
      rcases List.mem_append.mp ha with hoperand | hnode
      · obtain ⟨f, hmem, hoperand⟩ := List.mem_flatMap.mp hoperand
        exact ih f hmem (hfs f hmem) hoperand
      · have hnormalized : ∀ g ∈ fs.map normalize, g.IsWritable :=
          List.forall_mem_map.mpr fun f hmem => (hfs f hmem).normalize
        exact isJustified_of_normalizeNode
          (fun g hg => isWritable_of_mem_flatMap_splice hnormalized hg) hnode
  | xor l r ihl ihr =>
      obtain ⟨hl, hr⟩ := isWritable_xor.mp hf
      rw [applications_normalizeDerived_xor] at ha
      rcases List.mem_append.mp ha with hleft | hright
      · exact ihl hl hleft
      · exact ihr hr hright

/-! ## Reduction -/

theorem isJustified_of_reduceRoot (hf : f.IsWritable) (ha : a ∈ f.reduceRoot.applications) :
    a.IsJustified := by
  cases hroot : f.rootLaw? with
  | none =>
      rw [reduceRoot_of_none hroot] at ha
      exact absurd ha List.not_mem_nil
  | some answer =>
      obtain ⟨law, g⟩ := answer
      rw [reduceRoot_of_some hroot] at ha
      obtain rfl := List.mem_singleton.mp ha
      exact (rootLaw?_relates hroot).isJustified hf

theorem isJustified_of_stepDerived (hf : f.IsWritable) (ha : a ∈ f.stepDerived.applications) :
    a.IsJustified := by
  -- The law at a node sees operands that are reduced, and these can be written too.
  induction f with
  | const value | var name => exact absurd ha List.not_mem_nil
  | not f ih =>
      have hoperand := isWritable_not.mp hf
      rw [applications_stepDerived_not] at ha
      rcases List.mem_append.mp ha with hinner | hroot
      · exact ih hoperand hinner
      · exact isJustified_of_reduceRoot (isWritable_not.mpr hoperand.step) hroot
  | nary c fs ih =>
      have hfs := isWritable_nary.mp hf
      rw [applications_stepDerived_nary] at ha
      rcases List.mem_append.mp ha with hinner | hroot
      · obtain ⟨f, hmem, hinner⟩ := List.mem_flatMap.mp hinner
        exact ih f hmem (hfs f hmem) hinner
      · refine isJustified_of_reduceRoot (isWritable_nary.mpr ?_) hroot
        exact List.forall_mem_map.mpr fun f hmem => (hfs f hmem).step
  | xor l r ihl ihr =>
      obtain ⟨hl, hr⟩ := isWritable_xor.mp hf
      rw [applications_stepDerived_xor] at ha
      rcases List.mem_append.mp ha with hleft | ha
      · exact ihl hl hleft
      · rcases List.mem_append.mp ha with hright | hroot
        · exact ihr hr hright
        · exact isJustified_of_reduceRoot (isWritable_xor.mpr ⟨hl.step, hr.step⟩) hroot

/-! ## Passes and runs -/

theorem isJustified_of_pass (hf : f.IsWritable) (ha : a ∈ f.pass.applications) :
    a.IsJustified := by
  rw [applications_pass] at ha
  rcases List.mem_append.mp ha with hstep | hnormalize
  · exact isJustified_of_stepDerived hf hstep
  · exact isJustified_of_normalizeDerived hf.step hnormalize

theorem isJustified_of_ofFormula {limit : Nat} (hf : f.IsWritable)
    (ha : a ∈ (Run.ofFormula limit f).applications) : a.IsJustified := by
  induction limit generalizing f with
  | zero =>
      by_cases hrender : f.pass.value.render = f.render
      · rw [ofFormula_of_settled 0 hrender] at ha
        exact isJustified_of_pass hf ha
      · rw [ofFormula_zero hrender] at ha
        exact isJustified_of_pass hf ha
  | succ limit ih =>
      by_cases hrender : f.pass.value.render = f.render
      · rw [ofFormula_of_settled (limit + 1) hrender] at ha
        exact isJustified_of_pass hf ha
      · rw [ofFormula_succ limit hrender] at ha
        rcases List.mem_append.mp ha with hpass | hrest
        · exact isJustified_of_pass hf hpass
        · exact ih hf.step.normalize hrest

/-- Every law applied to a formula that can be written, by normalization, by a reduction
step or anywhere in a simplification, is justified, and the steps of a result report such
laws only. -/
theorem applications_isJustified (hf : f.IsWritable) :
    (∀ a ∈ f.normalizeDerived.applications, a.IsJustified) ∧
      (∀ a ∈ f.stepDerived.applications, a.IsJustified) ∧
      ∀ given, (∀ a ∈ f.simplifyApplications given, a.IsJustified) ∧
        ∀ s, f.simplify given = .ok s → ∀ step ∈ s.steps,
          ∃ a ∈ f.simplifyApplications given, a.step? = some step := by
  refine ⟨fun _ => isJustified_of_normalizeDerived hf, fun _ => isJustified_of_stepDerived hf, ?_⟩
  intro given
  refine ⟨?_, fun _ hresult _ => exists_application_of_mem_steps hresult⟩
  intro a ha
  rcases List.mem_append.mp ha with hnormalize | hrun
  · exact isJustified_of_normalizeDerived hf hnormalize
  · exact isJustified_of_ofFormula hf.normalize hrun

/-- A simplification without a result applies laws too. With a result it reports them. -/
theorem applications_isJustified_distribution :
    let f : Formula := .nary .or
      [.nary .and [.var "b", .var "a"], .const false, .nary .and [.var "c", .var "a"]]
    let sorted : Formula := .nary .or
      [.nary .and [.var "a", .var "b"], .nary .and [.var "a", .var "c"]]
    let factored : Formula := .nary .and [.var "a", .nary .or [.var "b", .var "c"]]
    let normalizing : Application := ⟨.identity .or, .nary .or
      [.nary .and [.var "a", .var "b"], .const false, .nary .and [.var "a", .var "c"]], sorted⟩
    let stepping : Application := ⟨.identity .or, f, .nary .or
      [.nary .and [.var "b", .var "a"], .nary .and [.var "c", .var "a"]]⟩
    let refused : Application := ⟨.distribution .or, sorted, factored⟩
    let steps : List Step := [⟨.identity .or, "a & b | 0 | a & c", "a & b | a & c"⟩,
      ⟨.distribution .or, "a & b | a & c", "a & (b | c)"⟩]
    f.IsWritable ∧
      (normalizing ∈ f.normalizeDerived.applications ∧ normalizing.IsJustified) ∧
      (stepping ∈ f.stepDerived.applications ∧ stepping.IsJustified) ∧
      f.simplify (some 0) = .error ⟨0⟩ ∧
      (refused ∈ f.simplifyApplications (some 0) ∧ refused.IsJustified) ∧
      f.simplify (some 1) = .ok ⟨factored, steps⟩ ∧
      ∀ step ∈ steps, ∃ a ∈ f.simplifyApplications (some 1), a.step? = some step := by
  intro f sorted factored normalizing stepping refused steps
  have hf : f.IsWritable := by decide
  have hnormalizing : f.normalizeDerived.applications = [normalizing] := by cbv
  have hstepping : f.stepDerived.applications = [stepping] := by cbv
  have hrefused : f.simplifyApplications (some 0) = [normalizing, refused] := by cbv
  have herror : f.simplify (some 0) = .error ⟨0⟩ := by cbv
  have hresult : f.simplify (some 1) = .ok ⟨factored, steps⟩ := by cbv
  obtain ⟨hnormalize, hstep, hsimplify⟩ := applications_isJustified hf
  refine ⟨hf, ?_, ?_, herror, ?_, hresult, (hsimplify (some 1)).2 _ hresult⟩
  · have hmem : normalizing ∈ f.normalizeDerived.applications := by simp [hnormalizing]
    exact ⟨hmem, hnormalize _ hmem⟩
  · have hmem : stepping ∈ f.stepDerived.applications := by simp [hstepping]
    exact ⟨hmem, hstep _ hmem⟩
  · have hmem : refused ∈ f.simplifyApplications (some 0) := by simp [hrefused]
    exact ⟨hmem, (hsimplify (some 0)).1 _ hmem⟩

end Formula

end BooleanSteps
