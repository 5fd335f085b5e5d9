import BooleanSteps.NormalForm
import BooleanSteps.Proofs.Operands

/-!
# Normalization reaches exactly the normal formulas

Whatever formula it starts from, normalization ends in a normal one, and a normal
formula is left as it is without the application of any law.
-/

namespace BooleanSteps.Formula

/-! ## Normal formulas -/

@[simp] theorem isNormal_const (value : Bool) : IsNormal (.const value) := trivial

@[simp] theorem isNormal_var (name : String) : IsNormal (.var name) := trivial

@[simp] theorem isNormal_not {f : Formula} : IsNormal (.not f) ↔ f.IsNormal := by
  simp [IsNormal, NormalNode]

@[simp] theorem isNormal_nary {c : Connective} {fs : List Formula} :
    IsNormal (.nary c fs) ↔ NormalOperands c fs ∧ ∀ f ∈ fs, f.IsNormal := by
  simp [IsNormal, NormalNode]

@[simp] theorem isNormal_xor {l r : Formula} :
    IsNormal (.xor l r) ↔ l.IsNormal ∧ r.IsNormal := by
  simp [IsNormal, NormalNode]

/-! ## The normal form of a node -/

theorem value_normalizeNode (c : Connective) (fs : List Formula) :
    (normalizeNode c fs).value =
      if .const c.absorbing ∈ fs then .const c.absorbing
      else collapse c (sortOperands (distinct (fs.filter (· ≠ .const c.neutral)))) := by
  unfold normalizeNode
  split <;> rfl

/-- The operands that are left when no operand decides the node are no constants. -/
theorem ne_const_of_mem_filter {c : Connective} {fs : List Formula}
    (habsorbing : .const c.absorbing ∉ fs) {f : Formula}
    (hf : f ∈ fs.filter (· ≠ .const c.neutral)) (value : Bool) : f ≠ .const value := by
  rw [List.mem_filter] at hf
  obtain ⟨hmem, hne⟩ := hf
  intro heq
  subst heq
  have hvalue : value ≠ c.neutral := by simpa using hne
  have habs : value = c.absorbing := by
    cases c <;> cases value <;> simp_all [Connective.neutral, Connective.absorbing]
  exact habsorbing (habs ▸ hmem)

theorem normalizeNode_isNormal {c : Connective} {fs : List Formula}
    (hnormal : ∀ f ∈ fs, f.IsNormal) (hflat : ∀ f ∈ fs, f.operands? c = none) :
    (normalizeNode c fs).value.IsNormal := by
  rw [value_normalizeNode]
  split
  next => exact isNormal_const _
  next habsorbing =>
    have hmem : ∀ f ∈ sortOperands (distinct (fs.filter (· ≠ .const c.neutral))),
        f ∈ fs.filter (· ≠ .const c.neutral) :=
      fun f hf => mem_of_mem_distinct (mem_sortOperands.mp hf)
    have hall : ∀ f ∈ sortOperands (distinct (fs.filter (· ≠ .const c.neutral))), f.IsNormal :=
      fun f hf => hnormal f (List.mem_filter.mp (hmem f hf)).1
    -- Thinning and sorting only choose among the operands, so what holds of each stays.
    refine collapse_cases c _ ?_ ?_ ?_
    · exact fun _ => isNormal_const _
    · intro f heq
      exact hall f (heq ▸ List.mem_singleton_self f)
    · intro hlen
      refine isNormal_nary.mpr ⟨⟨hlen, ?_, ?_, ?_, pairwise_sortOperands _⟩, hall⟩
      · exact fun f hf => hflat f (List.mem_filter.mp (hmem f hf)).1
      · exact fun f hf => ne_const_of_mem_filter habsorbing (hmem f hf)
      · refine ((sortOperands_perm _).pairwise_iff ?_).mpr (pairwise_distinct _)
        exact fun hne => Ne.symm hne

/-- The operands that a normal formula contributes to a node are normal and hold no
node of the same connective. -/
theorem IsNormal.of_mem_splice {c : Connective} {f g : Formula} (hf : f.IsNormal)
    (hg : g ∈ splice c f) : g.IsNormal ∧ g.operands? c = none := by
  rcases mem_splice_iff.mp hg with ⟨rfl, hnone⟩ | ⟨fs, rfl, hmem⟩
  · exact ⟨hf, hnone⟩
  · obtain ⟨hnode, hall⟩ := isNormal_nary.mp hf
    exact ⟨hall g hmem, hnode.not_nested g hmem⟩

theorem normalize_isNormal (f : Formula) : f.normalize.IsNormal := by
  induction f with
  | const value => exact isNormal_const value
  | var name => exact isNormal_var name
  | not f ih => exact isNormal_not.mpr ih
  | nary c fs ih =>
      rw [normalize_nary]
      have hsplice : ∀ g ∈ (fs.map normalize).flatMap (splice c),
          g.IsNormal ∧ g.operands? c = none := by
        intro g hg
        obtain ⟨f', hf', hg⟩ := List.mem_flatMap.mp hg
        obtain ⟨f, hf, rfl⟩ := List.mem_map.mp hf'
        exact (ih f hf).of_mem_splice hg
      exact normalizeNode_isNormal (fun g hg => (hsplice g hg).1) (fun g hg => (hsplice g hg).2)
  | xor l r ihl ihr => exact isNormal_xor.mpr ⟨ihl, ihr⟩

/-! ## Applications of a normalization -/

theorem applications_normalizeDerived_not (f : Formula) :
    (normalizeDerived (.not f)).applications = f.normalizeDerived.applications := by
  rw [normalizeDerived, Derived.applications_map]

theorem applications_normalizeDerived_nary (c : Connective) (fs : List Formula) :
    (normalizeDerived (.nary c fs)).applications =
      fs.flatMap (·.normalizeDerived.applications) ++
        (normalizeNode c ((fs.map normalize).flatMap (splice c))).applications := by
  simp [normalizeDerived]

theorem applications_normalizeDerived_xor (l r : Formula) :
    (normalizeDerived (.xor l r)).applications =
      l.normalizeDerived.applications ++ r.normalizeDerived.applications := by
  simp [normalizeDerived]

/-! ## Normal formulas stay -/

theorem NormalOperands.normalizeNode_eq {c : Connective} {fs : List Formula}
    (h : NormalOperands c fs) : normalizeNode c fs = pure (.nary c fs) := by
  have habsorbing : .const c.absorbing ∉ fs := fun hmem => h.not_const _ hmem _ rfl
  have hproper : fs.filter (· ≠ .const c.neutral) = fs := by
    rw [List.filter_eq_self]
    intro f hf
    simpa using h.not_const f hf c.neutral
  unfold normalizeNode
  rw [if_neg habsorbing]
  simp only [hproper, distinct_eq_self h.keys_ne, if_true, List.append_nil,
    sortOperands_eq_self h.sorted, collapse_eq_nary h.two_le]
  rfl

theorem normalizeAll_eq_pure {fs : List Formula}
    (h : ∀ f ∈ fs, f.normalizeDerived = pure f) : normalizeAll fs = pure fs := by
  induction fs with
  | nil => rfl
  | cons f fs ih =>
      obtain ⟨hhead, htail⟩ := List.forall_mem_cons.mp h
      unfold normalizeAll
      rw [hhead, ih htail]
      rfl

/-- A normal formula is its own normal form, and no law is applied to find that. -/
theorem IsNormal.normalizeDerived_eq {f : Formula} (h : f.IsNormal) :
    f.normalizeDerived = pure f := by
  induction f with
  | const value => rfl
  | var name => rfl
  | not f ih =>
      unfold normalizeDerived
      rw [ih (isNormal_not.mp h)]
      rfl
  | nary c fs ih =>
      obtain ⟨hnode, hall⟩ := isNormal_nary.mp h
      unfold normalizeDerived
      rw [normalizeAll_eq_pure fun f hf => ih f hf (hall f hf)]
      change normalizeNode c (fs.flatMap (splice c)) = _
      rw [flatMap_splice_of_not_nested hnode.not_nested, hnode.normalizeNode_eq]
  | xor l r ihl ihr =>
      obtain ⟨hl, hr⟩ := isNormal_xor.mp h
      unfold normalizeDerived
      rw [ihl hl, ihr hr]
      rfl

theorem IsNormal.normalize_eq {f : Formula} (h : f.IsNormal) : f.normalize = f := by
  unfold normalize
  rw [h.normalizeDerived_eq]
  rfl

/-- Normalization yields normal formulas, and those that it leaves alone are all of them. No law
is applied to one. -/
theorem normalize_eq_self_iff_isNormal (f : Formula) :
    f.normalize.IsNormal ∧ (f.IsNormal ↔ f.normalize = f) ∧
      (f.normalize = f → f.normalizeDerived.applications = []) := by
  have hnormal : f.normalize = f → f.IsNormal := by
    intro h
    rw [← h]
    exact normalize_isNormal f
  refine ⟨normalize_isNormal f, ⟨IsNormal.normalize_eq, hnormal⟩, ?_⟩
  intro h
  rw [(hnormal h).normalizeDerived_eq]
  rfl

end BooleanSteps.Formula
