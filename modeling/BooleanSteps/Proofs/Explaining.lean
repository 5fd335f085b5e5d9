import Mathlib.Data.List.Permutation
import BooleanSteps.Proofs.Likeness
import BooleanSteps.Proofs.PrintedPhrases
import BooleanSteps.Proofs.Quiescence
import BooleanSteps.Proofs.Termination

/-!
# The steps explain the result

A normalization or a reduction step works on parts of a formula, so what its steps explain
is stated for every context around the formula. Then explanations of parts are put together:
operands are changed one after the other, and the node above them is changed last. What is
not reported, grouping, order and laws that change no text, leaves formulas alike.
-/

namespace BooleanSteps

theorem Explains.of_alike {f g k : Formula} {steps : List Step} (hfg : f.Alike g)
    (hgk : Explains g steps k) : Explains f steps k := by
  cases hgk with
  | done halike => exact .done (hfg.trans halike)
  | step place halike hrest => exact .step place (hfg.trans halike) hrest

theorem Explains.append {f g k : Formula} {steps others : List Step} (hfg : Explains f steps g)
    (hgk : Explains g others k) : Explains f (steps ++ others) k := by
  induction hfg with
  | done halike => exact hgk.of_alike halike
  | step place halike _ ih => exact .step place halike (ih hgk)

namespace Formula

/-! ## Explanations in every context -/

/-- In every context that can be written, the steps that the applications are explain how
the first formula becomes the second. -/
def Leads (f : Formula) (applications : List Application) (g : Formula) : Prop :=
  ∀ place : Context, place.IsWritable →
    Explains (place.fill f) (stepsOf applications) (place.fill g)

variable {f g k : Formula} {c : Connective} {fs gs : List Formula}
  {applications others : List Application}

theorem Leads.of_alike (hf : f.IsWritable) (hg : g.IsWritable) (h : f.Alike g) :
    Leads f [] g :=
  fun _ hplace => .done (h.fill hf hg hplace)

theorem Leads.refl (f : Formula) : Leads f [] f := fun _ _ => .done (Alike.refl _)

theorem Leads.trans (hfg : Leads f applications g) (hgk : Leads g others k) :
    Leads f (applications ++ others) k := by
  intro place hplace
  rw [stepsOf_append]
  exact (hfg place hplace).append (hgk place hplace)

theorem Leads.inside (h : Leads f applications g) (place : Context) (hplace : place.IsWritable) :
    Leads (place.fill f) applications (place.fill g) := by
  intro outer houter
  rw [← Context.fill_comp, ← Context.fill_comp]
  exact h (outer.comp place) (houter.comp hplace)

theorem Leads.not (h : Leads f applications g) : Leads (.not f) applications (.not g) :=
  h.inside (.not .hole) trivial

/-- The left operand is changed before the right one. -/
theorem Leads.xor {l r l' r' : Formula} (hl : Leads l applications l') (hr : Leads r others r')
    (hleft : l'.IsWritable) (hright : r.IsWritable) :
    Leads (.xor l r) (applications ++ others) (.xor l' r') :=
  (hl.inside (.xorLeft .hole r) ⟨trivial, hright⟩).trans
    (hr.inside (.xorRight l' .hole) ⟨hleft, trivial⟩)

/-- An application is a step, or it changes nothing but grouping. -/
theorem leads_application (law : Law) (hf : f.IsWritable) (hg : g.IsWritable) :
    Leads f [⟨law, f, g⟩] g := by
  intro place hplace
  by_cases hrender : f.render = g.render
  · have hsteps : stepsOf [⟨law, f, g⟩] = [] := by
      simp [stepsOf, Application.step?, hrender]
    have halike := alike_of_flat_eq (flat_eq_of_render_eq hf hg hrender)
    rw [hsteps]
    exact .done (halike.fill hf hg hplace)
  · have hsteps : stepsOf [⟨law, f, g⟩] = [⟨law, f.render, g.render⟩] := by
      simp [stepsOf, Application.step?, hrender]
    rw [hsteps]
    exact .step place (Alike.refl _) (.done (Alike.refl _))

section Operands

variable {change : Formula → Derived Formula} (c : Connective)
  (hvalue : ∀ f ∈ fs, (change f).value.IsWritable)
  (h : ∀ f ∈ fs, Leads f (change f).applications (change f).value)
  (hfs : ∀ f ∈ fs, f.IsWritable)
include hvalue h hfs

theorem leads_behind (before : List Formula) (hbefore : ∀ f ∈ before, f.IsWritable) :
    Leads (.nary c (before ++ fs)) (fs.flatMap fun f => (change f).applications)
      (.nary c (before ++ fs.map fun f => (change f).value)) := by
  -- The operands in front are changed already, those behind are still as they were.
  induction fs generalizing before with
  | nil => exact Leads.refl _
  | cons f fs ih =>
      obtain ⟨hfirst, hothers⟩ := List.forall_mem_cons.mp h
      obtain ⟨hfirstValue, hothersValue⟩ := List.forall_mem_cons.mp hvalue
      obtain ⟨-, hfs⟩ := List.forall_mem_cons.mp hfs
      have hbefore' : ∀ g ∈ before ++ [(change f).value], g.IsWritable :=
        List.forall_mem_append.mpr ⟨hbefore, List.forall_mem_singleton.mpr hfirstValue⟩
      have hrest := ih hothersValue hothers hfs (before ++ [(change f).value]) hbefore'
      rw [List.append_assoc, List.append_assoc] at hrest
      exact (hfirst.inside (.nary c before .hole fs) ⟨hbefore, trivial, hfs⟩).trans hrest

/-- The operands of a node are changed from the left to the right. -/
theorem leads_operands :
    Leads (.nary c fs) (fs.flatMap fun f => (change f).applications)
      (.nary c (fs.map fun f => (change f).value)) :=
  leads_behind c hvalue h hfs [] (by simp)

end Operands

/-! ## Normalization -/

theorem collapse_isWritable (h : ∀ f ∈ fs, f.IsWritable) : (collapse c fs).IsWritable := by
  intro name hname
  rw [names_collapse] at hname
  obtain ⟨f, hf, hname⟩ := List.mem_flatMap.mp hname
  exact h f hf name hname

theorem alike_collapse (c : Connective) (fs : List Formula) : Alike (collapse c fs) (.nary c fs) :=
  alike_of_flat_eq (flat_collapse c fs)

/-- Leaving out operands is reported if there are any to leave out. -/
theorem leads_thinned (law : Law) (h : gs.Sublist fs) (hfs : ∀ f ∈ fs, f.IsWritable) :
    Leads (.nary c fs)
      (if gs.length = fs.length then [] else [⟨law, .nary c fs, collapse c gs⟩])
      (.nary c gs) := by
  split
  next hlength =>
    rw [h.eq_of_length hlength]
    exact Leads.refl _
  next =>
    have hgs : ∀ g ∈ gs, g.IsWritable := fun g hg => hfs g (h.subset hg)
    have hcollapse : (collapse c gs).IsWritable := collapse_isWritable hgs
    exact (leads_application law (isWritable_nary.mpr hfs) hcollapse).trans
      (Leads.of_alike hcollapse (isWritable_nary.mpr hgs) (alike_collapse c gs))

theorem alike_sortOperands (c : Connective) (fs : List Formula) :
    Alike (.nary c fs) (collapse c (sortOperands fs)) :=
  (alike_of_perm (sortOperands_perm fs).symm).trans (alike_collapse c _).symm

theorem leads_normalizeNode (c : Connective) (hfs : ∀ f ∈ fs, f.IsWritable) :
    Leads (.nary c fs) (normalizeNode c fs).applications (normalizeNode c fs).value := by
  unfold normalizeNode
  split
  next => exact leads_application _ (isWritable_nary.mpr hfs) (isWritable_const _)
  next =>
    let proper := fs.filter (· ≠ .const c.neutral)
    have hproper : ∀ f ∈ proper, f.IsWritable := fun f hf => hfs f (List.mem_filter.mp hf).1
    have hunique : ∀ f ∈ distinct proper, f.IsWritable :=
      fun f hf => hproper f (mem_of_mem_distinct hf)
    have hsorted : (collapse c (sortOperands (distinct proper))).IsWritable :=
      collapse_isWritable fun f hf => hunique f (mem_sortOperands.mp hf)
    have hidentity := leads_thinned (c := c) (.identity c)
      (List.filter_sublist : proper.Sublist fs) hfs
    have hidempotence := leads_thinned (c := c) (.idempotence c) (distinct_sublist proper) hproper
    have hrest := Leads.of_alike (isWritable_nary.mpr hunique) hsorted
      (alike_sortOperands c (distinct proper))
    have hall := (hidentity.trans hidempotence).trans hrest
    rw [List.append_nil] at hall
    exact hall

/-- The operands of operands are taken in, and the node is normalized. -/
theorem leads_node (c : Connective) (hfs : ∀ f ∈ fs, f.IsWritable)
    (hflat : ∀ f ∈ fs, f.IsFlat) :
    Leads (.nary c fs) (normalizeNode c (fs.flatMap (splice c))).applications
      (normalizeNode c (fs.flatMap (splice c))).value := by
  have hspliced : ∀ g ∈ fs.flatMap (splice c), g.IsWritable :=
    fun g hg => isWritable_of_mem_flatMap_splice hfs hg
  have hgrouped : Leads (.nary c fs) [] (.nary c (fs.flatMap (splice c))) :=
    Leads.of_alike (isWritable_nary.mpr hfs) (isWritable_nary.mpr hspliced)
      (alike_of_flat_eq (flat_nary_flatMap_splice hflat).symm)
  exact hgrouped.trans (leads_normalizeNode c hspliced)

theorem leads_normalize (hf : f.IsWritable) :
    Leads f f.normalizeDerived.applications f.normalize := by
  induction f with
  | const value | var name => exact Leads.refl _
  | not f ih =>
      rw [applications_normalizeDerived_not]
      exact (ih (isWritable_not.mp hf)).not
  | nary c fs ih =>
      have hfs := isWritable_nary.mp hf
      have hoperands : Leads (.nary c fs) (fs.flatMap (·.normalizeDerived.applications))
          (.nary c (fs.map normalize)) :=
        leads_operands c (fun f hmem => (hfs f hmem).normalize)
          (fun f hmem => ih f hmem (hfs f hmem)) hfs
      have hwritable : ∀ g ∈ fs.map normalize, g.IsWritable :=
        List.forall_mem_map.mpr fun f hmem => (hfs f hmem).normalize
      have hflat : ∀ g ∈ fs.map normalize, g.IsFlat :=
        List.forall_mem_map.mpr fun f _ => (normalize_isNormal f).isFlat
      rw [normalize_nary, applications_normalizeDerived_nary]
      exact hoperands.trans (leads_node c hwritable hflat)
  | xor l r ihl ihr =>
      obtain ⟨hl, hr⟩ := isWritable_xor.mp hf
      have hboth := Leads.xor (ihl hl) (ihr hr) hl.normalize hr
      rw [applications_normalizeDerived_xor]
      exact hboth

/-! ## Reduction -/

theorem leads_reduceRoot (hf : f.IsWritable) :
    Leads f f.reduceRoot.applications f.reduceRoot.value := by
  have hvalue : f.reduceRoot.value.IsWritable := hf.of_count_le (count_names_reduceRoot_le f)
  cases hroot : f.rootLaw? with
  | none =>
      rw [reduceRoot_of_none hroot]
      exact Leads.refl f
  | some answer =>
      obtain ⟨law, g⟩ := answer
      rw [reduceRoot_of_some hroot] at hvalue ⊢
      exact leads_application law hf hvalue

theorem leads_step (hf : f.IsWritable) : Leads f f.stepDerived.applications f.step := by
  induction f with
  | const value | var name => exact Leads.refl _
  | not f ih =>
      have hoperand := isWritable_not.mp hf
      rw [applications_stepDerived_not]
      exact (ih hoperand).not.trans (leads_reduceRoot (isWritable_not.mpr hoperand.step))
  | nary c fs ih =>
      have hfs := isWritable_nary.mp hf
      have hvalues : IsWritable (.nary c (fs.map step)) :=
        isWritable_nary.mpr (List.forall_mem_map.mpr fun f hmem => (hfs f hmem).step)
      have hoperands : Leads (.nary c fs) (fs.flatMap (·.stepDerived.applications))
          (.nary c (fs.map step)) :=
        leads_operands c (fun f hmem => (hfs f hmem).step)
          (fun f hmem => ih f hmem (hfs f hmem)) hfs
      rw [applications_stepDerived_nary, step_nary]
      exact hoperands.trans (leads_reduceRoot hvalues)
  | xor l r ihl ihr =>
      obtain ⟨hl, hr⟩ := isWritable_xor.mp hf
      have hboth := Leads.xor (ihl hl) (ihr hr) hl.step hr
      rw [applications_stepDerived_xor, ← List.append_assoc]
      exact hboth.trans (leads_reduceRoot (isWritable_xor.mpr ⟨hl.step, hr.step⟩))

/-! ## Runs -/

theorem leads_pass (hf : f.IsWritable) : Leads f f.pass.applications f.pass.value :=
  (leads_step hf).trans (leads_normalize hf.step)

theorem leads_passLaws (n : Nat) (hf : f.IsWritable) :
    Leads f (passLaws n f) (afterPasses n f) := by
  induction n generalizing f with
  | zero => exact Leads.refl f
  | succ n ih => exact (leads_pass hf).trans (ih hf.step.normalize)

/-- The steps of a simplification explain its result. -/
theorem simplify_explains (hf : f.IsWritable) {given : Option Nat} {s : Simplification}
    (h : f.simplify given = .ok s) : Explains f s.steps s.formula := by
  obtain ⟨k, -, hsettles⟩ := exists_settlesAfter (normalize_isNormal f)
  have hleads := (leads_normalize hf).trans (leads_passLaws k hf.normalize)
  rw [hsettles.simplify_eq] at h
  split at h
  next =>
    cases h
    exact hleads .hole trivial
  next => cases h

theorem simplify_explains_complement :
    let f : Formula := .nary .or [.not (.nary .and [.var "a", .const true]), .var "a"]
    let steps : List Step := [⟨.identity .and, "a & 1", "a"⟩, ⟨.complement .or, "a | ~a", "1"⟩]
    f.IsWritable ∧ f.simplify none = .ok ⟨.const true, steps⟩ ∧
      Explains f steps (.const true) := by
  have hresult : simplify (.nary .or [.not (.nary .and [.var "a", .const true]), .var "a"]) none =
      .ok ⟨.const true,
        [⟨.identity .and, "a & 1", "a"⟩, ⟨.complement .or, "a | ~a", "1"⟩]⟩ := by cbv
  exact ⟨by decide, hresult, simplify_explains (by decide) hresult⟩

end Formula

end BooleanSteps
