import Mathlib.Data.List.Permutation
import BooleanSteps.Proofs.Settling

/-!
# Termination

The passes that a run makes are the passes of the plain iteration, up to the first
that prints the same text again. There always is one, and since the effort of a
formula is linear in its size, the default limit is never exceeded. A limit decides
whether there is a result, and not what it is.
-/

namespace BooleanSteps.Formula

/-! ## Iterated passes -/

/-- The formula after a number of passes. -/
def afterPasses : Nat → Formula → Formula
  | 0, f => f
  | n + 1, f => afterPasses n f.pass.value

/-- The laws of the first passes. -/
def passLaws : Nat → Formula → List Application
  | 0, _ => []
  | n + 1, f => f.pass.applications ++ passLaws n f.pass.value

theorem pass_afterPasses (n : Nat) (f : Formula) :
    (afterPasses n f).pass.value = afterPasses (n + 1) f := by
  induction n generalizing f with
  | zero => rfl
  | succ n ih => exact ih f.pass.value

/-- The steps of the first passes are those of one pass after the other. -/
theorem stepsOf_passLaws (n : Nat) (f : Formula) :
    stepsOf (passLaws n f) = (List.range n).flatMap fun i => (afterPasses i f).pass.steps := by
  induction n generalizing f with
  | zero => rfl
  | succ n ih =>
      rw [passLaws, stepsOf_append, ih, List.range_succ_eq_map, List.flatMap_cons,
        List.flatMap_map]
      rfl

/-- The first `k` passes change the printed text, and the next one does not. -/
structure SettlesAfter (k : Nat) (f : Formula) : Prop where
  changes : ∀ i < k, (afterPasses (i + 1) f).render ≠ (afterPasses i f).render
  settled : (afterPasses (k + 1) f).render = (afterPasses k f).render

theorem settlesAfter_zero {f : Formula} (h : f.pass.value.render = f.render) :
    SettlesAfter 0 f :=
  ⟨fun _ hi => absurd hi (Nat.not_lt_zero _), h⟩

theorem settlesAfter_succ {k : Nat} {f : Formula} (hchange : f.pass.value.render ≠ f.render)
    (h : SettlesAfter k f.pass.value) : SettlesAfter (k + 1) f := by
  refine ⟨?_, h.settled⟩
  intro i hi
  cases i with
  | zero => exact hchange
  | succ i => exact h.changes i (Nat.lt_of_succ_lt_succ hi)

theorem SettlesAfter.pass {k : Nat} {f : Formula} (h : SettlesAfter (k + 1) f) :
    SettlesAfter k f.pass.value :=
  ⟨fun i hi => h.changes (i + 1) (Nat.succ_lt_succ hi), h.settled⟩

/-- A normal formula settles, and each pass up to there takes effort. -/
theorem exists_settlesAfter {f : Formula} (h : f.IsNormal) :
    ∃ k, k ≤ f.effort false ∧ SettlesAfter k f := by
  -- On the effort: a pass that changes the text is not quiet, so it takes some.
  generalize hn : f.effort false = n
  induction n using Nat.strongRecOn generalizing f with
  | ind n ih =>
      by_cases hrender : f.pass.value.render = f.render
      · exact ⟨0, Nat.zero_le _, settlesAfter_zero hrender⟩
      · have hquiet : ¬ f.IsQuiet := by
          intro hquiet
          rw [(pass_eq_self_iff h).mpr hquiet] at hrender
          exact hrender rfl
        have hlt := effort_pass_lt h hquiet
        rw [hn] at hlt
        obtain ⟨k, hk, hsettles⟩ := ih _ hlt (isNormal_pass f) rfl
        exact ⟨k + 1, Nat.lt_of_le_of_lt hk hlt, settlesAfter_succ hrender hsettles⟩

/-! ## Runs -/

theorem ofFormula_of_settled {f : Formula} (limit : Nat)
    (h : f.pass.value.render = f.render) : Run.ofFormula limit f = .settled f f.pass := by
  unfold Run.ofFormula
  exact if_pos h

theorem ofFormula_zero {f : Formula} (h : f.pass.value.render ≠ f.render) :
    Run.ofFormula 0 f = .exhausted f.pass := by
  unfold Run.ofFormula
  exact if_neg h

theorem ofFormula_succ {f : Formula} (limit : Nat) (h : f.pass.value.render ≠ f.render) :
    Run.ofFormula (limit + 1) f = .changed f.pass (Run.ofFormula limit f.pass.value) := by
  conv => lhs; unfold Run.ofFormula
  exact if_neg h

/-- A run is the plain iteration cut off at the limit. -/
theorem SettlesAfter.result?_eq {k : Nat} {f : Formula} (h : SettlesAfter k f) (limit : Nat) :
    (Run.ofFormula limit f).result? =
      if k ≤ limit then some ⟨afterPasses k f, passLaws k f⟩ else none := by
  induction limit generalizing k f with
  | zero =>
      cases k with
      | zero =>
          rw [ofFormula_of_settled 0 h.settled]
          rfl
      | succ k =>
          rw [ofFormula_zero (h.changes 0 (Nat.succ_pos k))]
          rfl
  | succ limit ih =>
      cases k with
      | zero =>
          rw [ofFormula_of_settled (limit + 1) h.settled]
          rfl
      | succ k =>
          rw [ofFormula_succ limit (h.changes 0 (Nat.succ_pos k))]
          change (Run.ofFormula limit f.pass.value).result?.map _ = _
          rw [ih h.pass]
          by_cases hk : k ≤ limit
          · rw [if_pos hk, if_pos (Nat.succ_le_succ hk)]
            rfl
          · rw [if_neg hk, if_neg fun hle => hk (Nat.le_of_succ_le_succ hle)]
            rfl

theorem SettlesAfter.simplifyDerived?_eq {k : Nat} {f : Formula}
    (h : SettlesAfter k f.normalize) (given : Option Nat) :
    f.simplifyDerived? given =
      if k ≤ f.limit given then
        some ⟨afterPasses k f.normalize,
          f.normalizeDerived.applications ++ passLaws k f.normalize⟩
      else none := by
  unfold simplifyDerived? run
  rw [h.result?_eq]
  split <;> rfl

/-- What a simplification returns is the formula on which the iteration settles. -/
theorem SettlesAfter.simplify_eq {k : Nat} {f : Formula} (h : SettlesAfter k f.normalize)
    (given : Option Nat) :
    f.simplify given =
      if k ≤ f.limit given then
        .ok ⟨afterPasses k f.normalize,
          stepsOf (f.normalizeDerived.applications ++ passLaws k f.normalize)⟩
      else .error ⟨f.limit given⟩ := by
  unfold simplify
  rw [h.simplifyDerived?_eq]
  by_cases hk : k ≤ f.limit given
  · rw [if_pos hk, if_pos hk]
    rfl
  · rw [if_neg hk, if_neg hk]

/-- The formula that a simplification returns is reached by passes and settled. -/
theorem exists_afterPasses_of_simplify {f : Formula} {given : Option Nat} {s : Simplification}
    (h : f.simplify given = .ok s) :
    ∃ k, SettlesAfter k f.normalize ∧ s.formula = afterPasses k f.normalize := by
  obtain ⟨k, -, hsettles⟩ := exists_settlesAfter (normalize_isNormal f)
  refine ⟨k, hsettles, ?_⟩
  rw [hsettles.simplify_eq] at h
  split at h
  next =>
    cases h
    rfl
  next => cases h

/-- The default limit is never exceeded: for every formula, in particular for every one
that is read from a text, the simplification returns a result after at most as many
changing passes. -/
theorem simplify_settles_within_default_limit (f : Formula) :
    ∃ s k, f.simplify none = .ok s ∧ k ≤ 16 * (f.nodeCount + 1) ∧
      SettlesAfter k f.normalize ∧ s.formula = afterPasses k f.normalize := by
  obtain ⟨k, hk, hsettles⟩ := exists_settlesAfter (normalize_isNormal f)
  have hnormalize := effort_normalize_le false f
  have hsize := effort_le_nodeCount f
  have hlimit : k ≤ f.limit none := by
    change k ≤ 16 * (f.nodeCount + 1)
    omega
  have hresult := hsettles.simplify_eq none
  rw [if_pos hlimit] at hresult
  exact ⟨_, k, hresult, hlimit, hsettles, rfl⟩

/-! ## Limits -/

/-- Every formula has a least sufficient limit, whatever its operands and its names are. It is
linear in the size of the formula, and every larger limit is sufficient too. -/
theorem exists_least_sufficient_limit (f : Formula) :
    ∃ least ≤ 7 * f.nodeCount,
      ∀ limit, (∃ s, f.simplify (some limit) = .ok s) ↔ least ≤ limit := by
  obtain ⟨k, hk, hsettles⟩ := exists_settlesAfter (normalize_isNormal f)
  have hnormalize := effort_normalize_le false f
  have hsize := effort_le_nodeCount f
  refine ⟨k, by omega, ?_⟩
  intro limit
  rw [hsettles.simplify_eq]
  change _ ↔ k ≤ f.limit (some limit)
  split
  next hle => exact ⟨fun _ => hle, fun _ => ⟨_, rfl⟩⟩
  next hnot =>
    constructor
    · rintro ⟨s, h⟩
      cases h
    · intro hle
      exact absurd hle hnot

/-- A limit decides whether there is a result and nothing else: from the number of passes on
that change the text, every limit gives the formula on which the iteration settles, with the
steps of the first normalization and of these passes, and every smaller one is exceeded. -/
theorem exists_settlesAfter_simplify_eq (f : Formula) :
    ∃ k, SettlesAfter k f.normalize ∧
      (∀ limit, f.simplify (some limit) =
        if k ≤ limit then
          .ok ⟨afterPasses k f.normalize, f.normalizeDerived.steps ++
            (List.range k).flatMap fun i => (afterPasses i f.normalize).pass.steps⟩
        else .error ⟨limit⟩) ∧
      ∀ limit s, f.simplify (some limit) = .ok s →
        ∀ larger, limit ≤ larger → f.simplify (some larger) = .ok s := by
  obtain ⟨k, -, hsettles⟩ := exists_settlesAfter (normalize_isNormal f)
  have hresult (limit : Nat) := hsettles.simplify_eq (some limit)
  simp only [limit_some, stepsOf_append, stepsOf_passLaws] at hresult
  refine ⟨k, hsettles, hresult, ?_⟩
  intro limit s h larger hle
  rw [hresult] at h
  split at h
  next hk =>
    rw [hresult, if_pos (Nat.le_trans hk hle)]
    exact h
  next => cases h

theorem exists_settlesAfter_simplify_eq_deMorgan :
    let f : Formula := .not (.nary .and [.var "b", .not (.var "a")])
    let s : Simplification := ⟨.nary .or [.var "a", .not (.var "b")],
      [⟨.deMorgan .and, "~(b & ~a)", "~b | ~~a"⟩, ⟨.doubleNegation, "~~a", "a"⟩]⟩
    f.simplify (some 1) = .error ⟨1⟩ ∧ f.simplify (some 2) = .ok s ∧
      f.simplify (some 7) = .ok s := by
  intro f s
  have htwo : f.simplify (some 2) = .ok s := by cbv
  obtain ⟨k, -, -, hlarger⟩ := exists_settlesAfter_simplify_eq f
  exact ⟨by cbv, htwo, hlarger 2 s htwo 7 (by decide)⟩

end BooleanSteps.Formula
