import BooleanSteps.Simplification
import BooleanSteps.Proofs.Effort

/-!
# Runs settle

Every pass in which a law is applied takes some of the effort of the formula, and a
pass without laws leaves a normal formula as it is. So a run settles, at the latest
when no effort is left, and the limit for the size of a formula is never reached.
-/

namespace BooleanSteps.Formula

/-! ## Normalization takes no effort -/

theorem weights_splice_le (c : Connective) (f : Formula) : weights (splice c f) ≤ f.weight := by
  rcases splice_eq c f with ⟨heq, -⟩ | ⟨fs, rfl, heq⟩
  · rw [heq]
    exact Nat.le_refl _
  · rw [heq, weight_nary]
    exact Nat.le_add_left _ _

theorem travel_le_of_mem_splice {c : Connective} {f g : Formula} (hg : g ∈ splice c f)
    (pending : Bool) : g.travel pending ≤ f.travel pending := by
  rcases mem_splice_iff.mp hg with ⟨rfl, -⟩ | ⟨fs, rfl, hmem⟩
  · exact Nat.le_refl _
  · rw [travel_nary]
    exact Nat.le_add_right_of_le (travel_le_travels hmem)

theorem weights_flatMap_splice_le {c : Connective} {fs : List Formula}
    (h : ∀ f ∈ fs, f.normalize.weight ≤ f.weight) :
    weights ((fs.map normalize).flatMap (splice c)) ≤ weights fs := by
  induction fs with
  | nil => exact Nat.le_refl _
  | cons f fs ih =>
      obtain ⟨hhead, htail⟩ := List.forall_mem_cons.mp h
      have hsplice := weights_splice_le c f.normalize
      have hrest := ih htail
      rw [List.map_cons, List.flatMap_cons, weights_append, weights_cons]
      omega

theorem weight_normalizeNode_le (c : Connective) {fs gs : List Formula}
    (h : weights gs ≤ weights fs) :
    (normalizeNode c gs).value.weight ≤ weight (.nary c fs) := by
  have hthree := three_le_weight (.nary c fs)
  rw [value_normalizeNode]
  split
  next => exact hthree
  next =>
    have hle : weights (sortOperands (distinct (gs.filter (· ≠ .const c.neutral)))) ≤
        weights gs := by
      rw [weights_perm (sortOperands_perm _)]
      exact weights_le_of_sublist ((distinct_sublist _).trans List.filter_sublist)
    refine collapse_cases c _ ?_ ?_ ?_
    · exact fun _ => hthree
    · intro f heq
      rw [heq, weights_cons, weights_nil] at hle
      rw [weight_nary]
      omega
    · intro hlen
      rw [weight_nary, weight_nary, if_neg (by omega)]
      split <;> omega

theorem travel_normalizeNode_le (pending : Bool) (c : Connective) (fs : List Formula) :
    (normalizeNode c fs).value.travel pending ≤ travel pending (.nary c fs) := by
  rw [value_normalizeNode]
  split
  next =>
    rw [travel_const, travel_nary]
    exact Nat.le_add_left _ _
  next =>
    refine Nat.le_trans (travel_collapse_le pending c _) (travel_nary_mono ?_)
    exact fun f hf => (List.mem_filter.mp (mem_of_mem_distinct (mem_sortOperands.mp hf))).1

theorem weight_normalize_le (f : Formula) : f.normalize.weight ≤ f.weight := by
  induction f with
  | const value => exact Nat.le_refl _
  | var name => exact Nat.le_refl _
  | not f ih => exact ih
  | nary c fs ih =>
      rw [normalize_nary]
      exact weight_normalizeNode_le c (weights_flatMap_splice_le ih)
  | xor l r ihl ihr => exact Nat.add_le_add ihl ihr

theorem IsStill.normalize {f : Formula} (h : f.IsStill) : f.normalize.IsStill := by
  rw [h.1]
  exact h

theorem release_normalize_le {f g : Formula}
    (hf : ∀ pending, f.normalize.travel pending ≤ f.travel pending)
    (hg : ∀ pending, g.normalize.travel pending ≤ g.travel pending) :
    release f.normalize g.normalize ≤ release f g := by
  -- A formula that is still stays so; one that becomes still releases less.
  by_cases hstill : f.IsStill
  · rw [release_of_isStill hstill.normalize]
    exact Nat.zero_le _
  · rw [release_of_not_isStill hstill]
    exact Nat.le_trans (release_le _ _) (Nat.add_le_add (hg true) (hf false))

theorem travel_normalize_le (f : Formula) (pending : Bool) :
    f.normalize.travel pending ≤ f.travel pending := by
  induction f generalizing pending with
  | const value => exact Nat.le_refl _
  | var name => exact Nat.le_refl _
  | not f ih =>
      rw [normalize_not, travel_not, travel_not]
      exact Nat.add_le_add_right (ih true) _
  | nary c fs ih =>
      rw [normalize_nary]
      refine Nat.le_trans (travel_normalizeNode_le pending c _) ?_
      rw [travel_nary, travel_nary]
      refine Nat.add_le_add_right (travels_le_iff.mpr ?_) _
      intro g hg
      obtain ⟨f', hf', hg⟩ := List.mem_flatMap.mp hg
      obtain ⟨f, hf, rfl⟩ := List.mem_map.mp hf'
      calc g.travel pending
        _ ≤ f.normalize.travel pending := travel_le_of_mem_splice hg pending
        _ ≤ f.travel pending := ih f hf pending
        _ ≤ travels pending fs := travel_le_travels hf
  | xor l r ihl ihr =>
      have hleft := release_normalize_le ihl ihr
      have hright := release_normalize_le ihr ihl
      rw [normalize_xor, travel_xor, travel_xor]
      omega

theorem effort_normalize_le (pending : Bool) (f : Formula) :
    f.normalize.effort pending ≤ f.effort pending := by
  have hweight := weight_normalize_le f
  have htravel := travel_normalize_le f pending
  unfold effort
  omega

/-! ## A step takes effort -/

theorem effort_not (pending : Bool) (f : Formula) :
    effort pending (.not f) = f.effort true + pending.toNat := by
  unfold effort
  rw [weight_not, travel_not, Nat.add_assoc]

theorem effort_xor (pending : Bool) (l r : Formula) :
    effort pending (.xor l r) = effort false (.xor l r) := by
  unfold effort
  rw [travel_xor, travel_xor]

theorem effort_false_le (f : Formula) : f.effort false ≤ f.effort true :=
  Nat.add_le_add_left (travel_false_le f) _

/-- The root of a formula stays, or something easier takes its place. -/
theorem reduceRoot_eq_or_easier (f : Formula) :
    (f.rootLaw? = none ∧ f.reduceRoot.value = f) ∨ Easier f f.reduceRoot.value := by
  cases h : f.rootLaw? with
  | none =>
      rw [reduceRoot_of_none h]
      exact .inl ⟨rfl, rfl⟩
  | some answer =>
      obtain ⟨law, g⟩ := answer
      rw [reduceRoot_of_some h]
      exact .inr (rootLaw?_relates h).easier

theorem weight_reduceRoot_le (f : Formula) : f.reduceRoot.value.weight ≤ f.weight := by
  rcases reduceRoot_eq_or_easier f with ⟨-, heq⟩ | heasier
  · exact Nat.le_of_eq (by rw [heq])
  · exact heasier.weight_le

theorem effort_reduceRoot_le (pending : Bool) (f : Formula) :
    f.reduceRoot.value.effort pending ≤ f.effort pending := by
  rcases reduceRoot_eq_or_easier f with ⟨-, heq⟩ | heasier
  · exact Nat.le_of_eq (by rw [heq])
  · cases pending with
    | false => exact Nat.le_of_lt heasier.idle
    | true => exact heasier.pending

theorem weights_map_step_le {fs : List Formula} (h : ∀ f ∈ fs, f.step.weight ≤ f.weight) :
    weights (fs.map step) ≤ weights fs := by
  induction fs with
  | nil => exact Nat.le_refl _
  | cons f fs ih =>
      obtain ⟨hhead, htail⟩ := List.forall_mem_cons.mp h
      exact Nat.add_le_add hhead (ih htail)

theorem weight_step_le (f : Formula) : f.step.weight ≤ f.weight := by
  induction f with
  | const value => exact Nat.le_refl _
  | var name => exact Nat.le_refl _
  | not f ih =>
      rw [step_not]
      exact Nat.le_trans (weight_reduceRoot_le _) ih
  | nary c fs ih =>
      rw [step_nary]
      refine Nat.le_trans (weight_reduceRoot_le _) ?_
      rw [weight_nary, weight_nary, List.length_map]
      exact Nat.add_le_add_left (weights_map_step_le ih) _
  | xor l r ihl ihr =>
      rw [step_xor]
      exact Nat.le_trans (weight_reduceRoot_le _) (Nat.add_le_add ihl ihr)

/-- Nothing travels in a formula that is normal and quiet. -/
theorem travel_eq_zero {f : Formula} (hnormal : f.IsNormal) (hquiet : f.IsQuiet) :
    f.travel false = 0 := by
  induction f with
  | const value => rw [travel_const, Bool.toNat_false]
  | var name => rw [travel]
  | not f ih =>
      obtain ⟨hf, hroot⟩ := isQuiet_not.mp hquiet
      have hzero := ih (isNormal_not.mp hnormal) hf
      rw [travel_not, Bool.toNat_false, Nat.add_zero]
      rcases negationLaw?_eq_none hroot with ⟨name, rfl⟩ | ⟨l, r, rfl⟩
      · rw [travel]
      · rw [travel_xor] at hzero ⊢
        exact hzero
  | nary c fs ih =>
      obtain ⟨-, hall⟩ := isNormal_nary.mp hnormal
      obtain ⟨hfs, -⟩ := isQuiet_nary.mp hquiet
      have hzero : travels false fs ≤ 0 :=
        travels_le_iff.mpr fun f hf => Nat.le_of_eq (ih f hf (hall f hf) (hfs f hf))
      rw [travel_nary, Nat.le_zero.mp hzero, Bool.toNat_false]
  | xor l r ihl ihr =>
      obtain ⟨hl, hr⟩ := isNormal_xor.mp hnormal
      obtain ⟨hlq, hrq, hroot⟩ := isQuiet_xor.mp hquiet
      obtain ⟨hlc, hrc, -⟩ := xorLaw?_eq_none hroot
      have hlstill : l.IsStill := ⟨hl.normalize_eq, hlq, hlc⟩
      have hrstill : r.IsStill := ⟨hr.normalize_eq, hrq, hrc⟩
      rw [travel_xor, release_of_isStill hlstill, release_of_isStill hrstill, Nat.max_self]

theorem efforts_map_step_le {fs : List Formula}
    (h : ∀ f ∈ fs, f.step.effort true ≤ f.effort true) :
    2 * weights (fs.map step) + travels true (fs.map step) ≤
      2 * weights fs + travels true fs := by
  induction fs with
  | nil => exact Nat.le_refl _
  | cons f fs ih =>
      obtain ⟨hhead, htail⟩ := List.forall_mem_cons.mp h
      have hrest := ih htail
      have hweight := weight_step_le f
      have hweights : weights (fs.map step) ≤ weights fs :=
        weights_map_step_le fun f _ => weight_step_le f
      unfold effort at hhead
      simp only [List.map_cons, weights_cons, travels]
      omega

/-- The step of several formulas that are normal: those that are not quiet get
easier, and in the others nothing travels. -/
theorem efforts_map_step_lt {fs : List Formula} (hnormal : ∀ f ∈ fs, f.IsNormal)
    (h : ∀ f ∈ fs, ¬ f.IsQuiet → f.step.effort false < f.effort false)
    (hsome : ∃ f ∈ fs, ¬ f.IsQuiet) :
    2 * weights (fs.map step) + travels false (fs.map step) <
      2 * weights fs + travels false fs := by
  induction fs with
  | nil =>
      obtain ⟨f, hf, -⟩ := hsome
      exact absurd hf List.not_mem_nil
  | cons f fs ih =>
      obtain ⟨hhead, htail⟩ := List.forall_mem_cons.mp h
      obtain ⟨hnhead, hntail⟩ := List.forall_mem_cons.mp hnormal
      have hweight := weight_step_le f
      have hweights : weights (fs.map step) ≤ weights fs :=
        weights_map_step_le fun f _ => weight_step_le f
      unfold effort at hhead
      simp only [List.map_cons, weights_cons, travels]
      by_cases hrest : ∃ f ∈ fs, ¬ f.IsQuiet
      · have hlt := ih hntail htail hrest
        by_cases hquiet : f.IsQuiet
        · rw [hquiet.step_eq, travel_eq_zero hnhead hquiet]
          omega
        · have hlt' := hhead hquiet
          omega
      · -- Nothing travels in the rest, so the head alone pays.
        have hall : ∀ f ∈ fs, f.IsQuiet := fun f hf =>
          Decidable.not_not.mp fun hnot => hrest ⟨f, hf, hnot⟩
        have hquiet : ¬ f.IsQuiet := by
          obtain ⟨g, hg, hnot⟩ := hsome
          rcases List.mem_cons.mp hg with rfl | hg
          · exact hnot
          · exact absurd (hall g hg) hnot
        have hzero : travels false fs ≤ 0 := travels_le_iff.mpr fun f hf =>
          Nat.le_of_eq (travel_eq_zero (hntail f hf) (hall f hf))
        have hlt' := hhead hquiet
        rw [map_step_eq_self fun f hf => (hall f hf).step_eq]
        omega

theorem IsStill.step_eq {f : Formula} (h : f.IsStill) : f.step = f := h.2.1.step_eq

/-- One step of the formula: a pending negation does not make it harder, and if a law is
applied anywhere, the formula gets easier. -/
structure StepEases (f : Formula) : Prop where
  pending : f.step.effort true ≤ f.effort true
  idle : ¬ f.IsQuiet → f.step.effort false < f.effort false

theorem stepEases_not {f : Formula} (h : f.StepEases) : StepEases (.not f) := by
  constructor
  · rw [step_not]
    refine Nat.le_trans (effort_reduceRoot_le true _) ?_
    rw [effort_not, effort_not]
    exact Nat.add_le_add_right h.pending _
  · intro hquiet
    rw [step_not]
    rcases reduceRoot_eq_or_easier (.not f.step) with ⟨hroot, heq⟩ | heasier
    · -- The negation stays, so the law was applied in its operand.
      have hmoves : ¬ f.IsQuiet := fun hf =>
        hquiet (isQuiet_not.mpr ⟨hf, by rw [← hf.step_eq]; exact hroot⟩)
      -- Nothing travels through a variable or XOR, so the pending negation takes nothing.
      have hsame : f.step.effort true = f.step.effort false := by
        rcases negationLaw?_eq_none hroot with ⟨name, heq⟩ | ⟨l, r, heq⟩
        · rw [heq]
          unfold effort
          rw [travel, travel]
        · rw [heq, effort_xor]
      have hlt := h.idle hmoves
      have hle := effort_false_le f
      rw [heq, effort_not, effort_not, Bool.toNat_false]
      omega
    · have hlt := heasier.idle
      have hle := h.pending
      rw [effort_not, Bool.toNat_false] at hlt ⊢
      omega

theorem stepEases_nary {c : Connective} {fs : List Formula} (hnormal : ∀ f ∈ fs, f.IsNormal)
    (h : ∀ f ∈ fs, f.StepEases) : StepEases (.nary c fs) := by
  constructor
  · rw [step_nary]
    refine Nat.le_trans (effort_reduceRoot_le true _) ?_
    have hle := efforts_map_step_le fun f hf => (h f hf).pending
    unfold effort
    rw [weight_nary, weight_nary, travel_nary, travel_nary, List.length_map]
    omega
  · intro hquiet
    rw [step_nary]
    by_cases hsome : ∃ f ∈ fs, ¬ f.IsQuiet
    · refine Nat.lt_of_le_of_lt (effort_reduceRoot_le false _) ?_
      have hlt := efforts_map_step_lt hnormal (fun f hf => (h f hf).idle) hsome
      unfold effort
      rw [weight_nary, weight_nary, travel_nary, travel_nary, List.length_map]
      omega
    · -- The operands are as they were, so the law was applied at the root.
      have hquiets : ∀ f ∈ fs, f.IsQuiet := fun f hf =>
        Decidable.not_not.mp fun hnot => hsome ⟨f, hf, hnot⟩
      rw [map_step_eq_self fun f hf => (hquiets f hf).step_eq]
      rcases reduceRoot_eq_or_easier (.nary c fs) with ⟨hroot, -⟩ | heasier
      · exact absurd (isQuiet_nary.mpr ⟨hquiets, hroot⟩) hquiet
      · exact heasier.idle

/-- A step makes an operand of XOR and the release of the other one easier together,
strictly so if the operand moves. -/
theorem release_step_le {f g : Formula} (hf : f.StepEases) (hg : g.StepEases) :
    2 * (f.step.weight + g.step.weight) + release f.step g.step ≤
        2 * (f.weight + g.weight) + release f g ∧
      (¬ f.IsQuiet → 2 * (f.step.weight + g.step.weight) + release f.step g.step <
        2 * (f.weight + g.weight) + release f g) := by
  have hfweight := weight_step_le f
  have hgweight := weight_step_le g
  by_cases hstill : f.IsStill
  · refine ⟨?_, fun hquiet => absurd hstill.2.1 hquiet⟩
    rw [hstill.step_eq, release_of_isStill hstill, release_of_isStill hstill]
    omega
  · have hle := release_le f.step g.step
    have hpending := hg.pending
    rw [release_of_not_isStill hstill]
    unfold effort at hpending
    by_cases hquiet : f.IsQuiet
    · rw [hquiet.step_eq] at hle ⊢
      exact ⟨by omega, fun hnot => absurd hquiet hnot⟩
    · have hlt := hf.idle hquiet
      unfold effort at hlt
      exact ⟨by omega, fun _ => by omega⟩

theorem effort_xor_step_le {l r : Formula} (hl : l.StepEases) (hr : r.StepEases) :
    effort false (.xor l.step r.step) ≤ effort false (.xor l r) := by
  obtain ⟨hleft, -⟩ := release_step_le hl hr
  obtain ⟨hright, -⟩ := release_step_le hr hl
  unfold effort
  rw [weight_xor, weight_xor, travel_xor, travel_xor]
  omega

/-- An operand of XOR that does not move releases nothing. -/
theorem release_eq_zero {f : Formula} (hf : f.IsNormal) (hconst : f.NoConst) (hquiet : f.IsQuiet)
    (g : Formula) : release f.step g = 0 := by
  have hstill : f.IsStill := ⟨hf.normalize_eq, hquiet, hconst⟩
  rw [hstill.step_eq, release_of_isStill hstill]

theorem effort_xor_step_lt {l r : Formula} (hl : l.StepEases) (hr : r.StepEases)
    (hlnormal : l.IsNormal) (hrnormal : r.IsNormal) (hlconst : l.NoConst) (hrconst : r.NoConst)
    (hmoves : ¬ (l.IsQuiet ∧ r.IsQuiet)) :
    effort false (.xor l.step r.step) < effort false (.xor l r) := by
  obtain ⟨hleft, hleft'⟩ := release_step_le hl hr
  obtain ⟨hright, hright'⟩ := release_step_le hr hl
  unfold effort
  rw [weight_xor, weight_xor, travel_xor, travel_xor]
  by_cases hlquiet : l.IsQuiet
  · have hrquiet : ¬ r.IsQuiet := fun h => hmoves ⟨hlquiet, h⟩
    have hlt := hright' hrquiet
    rw [release_eq_zero hlnormal hlconst hlquiet]
    omega
  · have hlt := hleft' hlquiet
    by_cases hrquiet : r.IsQuiet
    · rw [release_eq_zero hrnormal hrconst hrquiet]
      omega
    · have hlt' := hright' hrquiet
      omega

theorem noConst_of_step {f : Formula} (h : f.step.NoConst) : f.NoConst := by
  rintro value rfl
  exact h value rfl

theorem stepEases_xor {l r : Formula} (hlnormal : l.IsNormal) (hrnormal : r.IsNormal)
    (hl : l.StepEases) (hr : r.StepEases) : StepEases (.xor l r) := by
  have hle := effort_xor_step_le hl hr
  constructor
  · rw [step_xor]
    refine Nat.le_trans (effort_reduceRoot_le true _) ?_
    rw [effort_xor, effort_xor true]
    exact hle
  · intro hquiet
    rw [step_xor]
    rcases reduceRoot_eq_or_easier (.xor l.step r.step) with ⟨hroot, heq⟩ | heasier
    · -- No operand has become a constant, so neither was one before the step.
      obtain ⟨hlconst, hrconst, -⟩ := xorLaw?_eq_none hroot
      rw [heq]
      refine effort_xor_step_lt hl hr hlnormal hrnormal (noConst_of_step hlconst)
        (noConst_of_step hrconst) ?_
      rintro ⟨hlquiet, hrquiet⟩
      rw [hlquiet.step_eq, hrquiet.step_eq] at hroot
      exact hquiet (isQuiet_xor.mpr ⟨hlquiet, hrquiet, hroot⟩)
    · exact Nat.lt_of_lt_of_le heasier.idle hle

theorem IsNormal.stepEases {f : Formula} (h : f.IsNormal) : f.StepEases := by
  induction f with
  | const value => exact ⟨Nat.le_refl _, fun hquiet => absurd (isQuiet_const value) hquiet⟩
  | var name => exact ⟨Nat.le_refl _, fun hquiet => absurd (isQuiet_var name) hquiet⟩
  | not f ih => exact stepEases_not (ih (isNormal_not.mp h))
  | nary c fs ih =>
      obtain ⟨-, hall⟩ := isNormal_nary.mp h
      exact stepEases_nary hall fun f hf => ih f hf (hall f hf)
  | xor l r ihl ihr =>
      obtain ⟨hl, hr⟩ := isNormal_xor.mp h
      exact stepEases_xor hl hr (ihl hl) (ihr hr)

/-! ## Passes -/

theorem isNormal_pass (f : Formula) : f.pass.value.IsNormal := normalize_isNormal f.step

/-- A pass in which a law is applied takes effort. -/
theorem effort_pass_lt {f : Formula} (h : f.IsNormal) (hquiet : ¬ f.IsQuiet) :
    f.pass.value.effort false < f.effort false :=
  Nat.lt_of_le_of_lt (effort_normalize_le false f.step) (h.stepEases.idle hquiet)

/-- A pass changes a normal formula exactly if a law is applied in it. -/
theorem pass_eq_self_iff {f : Formula} (h : f.IsNormal) : f.pass.value = f ↔ f.IsQuiet := by
  constructor
  · intro heq
    by_cases hquiet : f.IsQuiet
    · exact hquiet
    · have hlt := effort_pass_lt h hquiet
      rw [heq] at hlt
      exact absurd hlt (Nat.lt_irrefl _)
  · intro hquiet
    rw [value_pass, hquiet.step_eq, h.normalize_eq]

/-! ## Size -/

theorem weights_le_nodeCounts {fs : List Formula} (h : ∀ f ∈ fs, f.weight ≤ 3 * f.nodeCount) :
    weights fs ≤ 3 * nodeCounts fs := by
  induction fs with
  | nil => exact Nat.le_refl _
  | cons f fs ih =>
      obtain ⟨hhead, htail⟩ := List.forall_mem_cons.mp h
      have hrest := ih htail
      rw [weights_cons, nodeCounts]
      omega

theorem weight_le_nodeCount (f : Formula) : f.weight ≤ 3 * f.nodeCount := by
  induction f with
  | const value => exact Nat.le_refl _
  | var name => exact Nat.le_refl _
  | not f ih =>
      rw [weight_not, nodeCount]
      omega
  | nary c fs ih =>
      have hweights := weights_le_nodeCounts ih
      rw [weight_nary, nodeCount]
      split <;> omega
  | xor l r ihl ihr =>
      rw [weight_xor, nodeCount]
      omega

theorem nodeCount_le_nodeCounts {f : Formula} {fs : List Formula} (h : f ∈ fs) :
    f.nodeCount ≤ nodeCounts fs := by
  induction fs with
  | nil => exact absurd h List.not_mem_nil
  | cons head fs ih =>
      rw [nodeCounts]
      rcases List.mem_cons.mp h with rfl | h
      · exact Nat.le_add_right _ _
      · exact Nat.le_add_left_of_le (ih h)

/-- Negations travel along a path for each of the operands of XOR, so no node is
passed twice. -/
theorem travel_le_nodeCount (f : Formula) : f.travel true ≤ f.nodeCount := by
  induction f with
  | const value =>
      rw [travel_const, nodeCount]
      exact Nat.le_refl _
  | var name =>
      rw [travel]
      exact Nat.zero_le _
  | not f ih =>
      rw [travel_not, nodeCount, Bool.toNat_true]
      omega
  | nary c fs ih =>
      have hle : travels true fs ≤ nodeCounts fs :=
        travels_le_iff.mpr fun f hf => Nat.le_trans (ih f hf) (nodeCount_le_nodeCounts hf)
      rw [travel_nary, nodeCount, Bool.toNat_true]
      omega
  | xor l r ihl ihr =>
      have hl := travel_false_le l
      have hr := travel_false_le r
      have hright := release_le r l
      have hleft := release_le l r
      rw [travel_xor, nodeCount]
      omega

theorem effort_le_nodeCount (f : Formula) : f.effort false ≤ 7 * f.nodeCount := by
  have hweight := weight_le_nodeCount f
  have htravel := Nat.le_trans (travel_false_le f) (travel_le_nodeCount f)
  unfold effort
  omega

end BooleanSteps.Formula
