import Mathlib.Data.List.Permutation
import BooleanSteps.Formula.Names
import BooleanSteps.Proofs.Termination

/-!
# Occurrences of variables

No law and no normalization makes a variable occur more often. So simplification
brings in no variable, and what can be written stays so.
-/

namespace BooleanSteps

namespace Formula

variable {name : String}

theorem names_collapse (c : Connective) (fs : List Formula) :
    names (collapse c fs) = fs.flatMap names := by
  refine collapse_cases c fs ?_ ?_ ?_
  · rintro rfl
    rfl
  · rintro f rfl
    simp
  · exact fun _ => names_nary c fs

theorem flatMap_names_sublist {fs gs : List Formula} (h : fs.Sublist gs) :
    (fs.flatMap names).Sublist (gs.flatMap names) := by
  induction h with
  | slnil => exact List.Sublist.refl _
  | cons f _ ih => exact ih.trans (List.sublist_append_right _ _)
  | cons_cons f _ ih => exact (List.Sublist.refl _).append ih

theorem count_flatMap_names_le {fs gs : List Formula} (h : fs.Sublist gs) :
    (fs.flatMap names).count name ≤ (gs.flatMap names).count name :=
  (flatMap_names_sublist h).count_le name

theorem flatMap_names_splice (c : Connective) (f : Formula) :
    (splice c f).flatMap names = f.names := by
  rcases splice_eq c f with ⟨heq, -⟩ | ⟨fs, rfl, heq⟩
  · rw [heq, List.flatMap_singleton]
  · rw [heq, names_nary]

theorem count_flatMap_map_le {change : Formula → Formula} {fs : List Formula}
    (h : ∀ f ∈ fs, (change f).names.count name ≤ f.names.count name) :
    ((fs.map change).flatMap names).count name ≤ (fs.flatMap names).count name := by
  induction fs with
  | nil => exact Nat.le_refl _
  | cons f fs ih =>
      obtain ⟨hhead, htail⟩ := List.forall_mem_cons.mp h
      rw [List.map_cons, List.flatMap_cons, List.flatMap_cons, List.count_append,
        List.count_append]
      exact Nat.add_le_add hhead (ih htail)

/-- A formula that is filtered out takes its variables with it. -/
theorem count_names_filter_le (name : String) {f : Formula} {fs : List Formula}
    {p : Formula → Bool} (hf : f ∈ fs) (hp : p f = false) :
    f.names.count name + ((fs.filter p).flatMap names).count name ≤
      (fs.flatMap names).count name := by
  obtain ⟨before, after, rfl⟩ := List.append_of_mem hf
  have hbefore : ((before.filter p).flatMap names).count name ≤
      (before.flatMap names).count name := count_flatMap_names_le List.filter_sublist
  have hafter : ((after.filter p).flatMap names).count name ≤
      (after.flatMap names).count name := count_flatMap_names_le List.filter_sublist
  rw [List.filter_append, List.filter_cons_of_neg (by simp [hp])]
  simp only [List.flatMap_append, List.flatMap_cons, List.count_append]
  omega

/-! ## Normalization -/

theorem count_names_normalizeNode_le (c : Connective) (fs : List Formula) :
    (normalizeNode c fs).value.names.count name ≤ (fs.flatMap names).count name := by
  rw [value_normalizeNode]
  split
  next => exact Nat.zero_le _
  next =>
    rw [names_collapse, ((sortOperands_perm _).flatMap_right names).count_eq]
    exact count_flatMap_names_le ((distinct_sublist _).trans List.filter_sublist)

theorem count_names_normalize_le (f : Formula) (name : String) :
    f.normalize.names.count name ≤ f.names.count name := by
  induction f with
  | const value => exact Nat.le_refl _
  | var name => exact Nat.le_refl _
  | not f ih => exact ih
  | nary c fs ih =>
      rw [normalize_nary, names_nary]
      refine Nat.le_trans (count_names_normalizeNode_le c _) ?_
      rw [List.flatMap_assoc, funext (flatMap_names_splice c)]
      exact count_flatMap_map_le ih
  | xor l r ihl ihr =>
      rw [normalize_xor, names, names, List.count_append, List.count_append]
      exact Nat.add_le_add ihl ihr

end Formula

/-! ## Laws -/

open Formula in
theorem Law.Relates.count_names_le {law : Law} {f g : Formula} (h : law.Relates f g)
    (name : String) : g.names.count name ≤ f.names.count name := by
  cases h with
  | doubleNegation => exact Nat.le_refl _
  | deMorgan c fs =>
      rw [names_nary]
      refine Nat.le_trans (count_flatMap_map_le fun _ _ => Nat.le_refl _) ?_
      exact Nat.le_of_eq (by rw [names, names_nary])
  | constantComplement => exact Nat.le_refl _
  | identity c fs hmem =>
      rw [names_collapse, names_nary]
      exact count_flatMap_names_le List.filter_sublist
  | annulment => exact Nat.zero_le _
  | idempotence c fs gs after hthins hlen hafter =>
      have hnames : g.names = gs.flatMap names := by
        rcases hafter with rfl | rfl
        · exact names_nary c gs
        · exact names_collapse c gs
      rw [hnames, names_nary]
      exact count_flatMap_names_le hthins.sublist
  | complement => exact Nat.zero_le _
  | absorption c before after gs f k hf hk hkey =>
      rw [names_collapse, names_nary]
      exact count_flatMap_names_le ((List.sublist_cons_self _ after).append_left before)
  | distribution c first second third left right f hf hshared =>
      -- The common operand is written once and is filtered out of both rests.
      obtain ⟨g, hg, hkey⟩ := hshared
      have hleft := count_names_filter_le name (p := fun g => ¬ f.equivalent g) hf
        (by simp [equivalent])
      have hright := count_names_filter_le name (p := fun g => ¬ f.equivalent g) hg
        (by simp [equivalent, hkey])
      simp only [names_collapse, names_nary, List.flatMap_cons, List.flatMap_append,
        List.flatMap_nil, List.append_nil, List.count_append] at hleft hright ⊢
      omega
  | xorIdentityRight =>
      rw [names, List.count_append]
      exact Nat.le_add_right _ _
  | xorIdentityLeft =>
      rw [names, List.count_append]
      exact Nat.le_add_left _ _
  | xorWithOneRight f =>
      rw [names, names, List.count_append]
      exact Nat.le_add_right _ _
  | xorWithOneLeft f =>
      rw [names, names, List.count_append]
      exact Nat.le_add_left _ _
  | xorCancellation => exact Nat.zero_le _

namespace Formula

/-! ## Steps and passes -/

theorem count_names_reduceRoot_le (f : Formula) (name : String) :
    f.reduceRoot.value.names.count name ≤ f.names.count name := by
  unfold reduceRoot
  split
  next law g hroot => exact (rootLaw?_relates hroot).count_names_le name
  next => exact Nat.le_refl _

theorem count_names_step_le (f : Formula) (name : String) :
    f.step.names.count name ≤ f.names.count name := by
  induction f with
  | const value => exact Nat.le_refl _
  | var name => exact Nat.le_refl _
  | not f ih =>
      rw [step_not]
      exact Nat.le_trans (count_names_reduceRoot_le _ name) ih
  | nary c fs ih =>
      rw [step_nary]
      refine Nat.le_trans (count_names_reduceRoot_le _ name) ?_
      rw [names_nary, names_nary]
      exact count_flatMap_map_le ih
  | xor l r ihl ihr =>
      rw [step_xor]
      refine Nat.le_trans (count_names_reduceRoot_le _ name) ?_
      rw [names, names, List.count_append, List.count_append]
      exact Nat.add_le_add ihl ihr

theorem mem_names_of_count_le {f g : Formula}
    (h : ∀ name, g.names.count name ≤ f.names.count name) {name : String}
    (hname : name ∈ g.names) : name ∈ f.names :=
  List.count_pos_iff.mp (Nat.lt_of_lt_of_le (List.count_pos_iff.mpr hname) (h name))

theorem IsWritable.of_count_le {f g : Formula} (hf : f.IsWritable)
    (h : ∀ name, g.names.count name ≤ f.names.count name) : g.IsWritable :=
  fun name hname => hf name (mem_names_of_count_le h hname)

theorem IsWritable.of_mem_splice {c : Connective} {f g : Formula} (hf : f.IsWritable)
    (hg : g ∈ splice c f) : g.IsWritable := by
  intro name hname
  apply hf name
  rw [← flatMap_names_splice c f]
  exact List.mem_flatMap.mpr ⟨g, hg, hname⟩

theorem isWritable_of_mem_flatMap_splice {c : Connective} {fs : List Formula}
    (h : ∀ f ∈ fs, f.IsWritable) {g : Formula} (hg : g ∈ fs.flatMap (splice c)) :
    g.IsWritable := by
  obtain ⟨f, hf, hg⟩ := List.mem_flatMap.mp hg
  exact (h f hf).of_mem_splice hg

theorem IsWritable.normalize {f : Formula} (h : f.IsWritable) : f.normalize.IsWritable :=
  h.of_count_le (count_names_normalize_le f)

theorem IsWritable.step {f : Formula} (h : f.IsWritable) : f.step.IsWritable :=
  h.of_count_le (count_names_step_le f)

theorem count_names_afterPasses_le (n : Nat) (f : Formula) (name : String) :
    (afterPasses n f).names.count name ≤ f.names.count name := by
  induction n generalizing f with
  | zero => exact Nat.le_refl _
  | succ n ih =>
      refine Nat.le_trans (ih f.pass.value) ?_
      exact Nat.le_trans (count_names_normalize_le f.step name) (count_names_step_le f name)

theorem IsWritable.afterPasses {f : Formula} (h : f.IsWritable) (n : Nat) :
    (afterPasses n f).IsWritable :=
  h.of_count_le (count_names_afterPasses_le n f)

/-! ## Simplification -/

theorem count_names_simplify_le {f : Formula} {given : Option Nat} {s : Simplification}
    (h : f.simplify given = .ok s) (name : String) :
    s.formula.names.count name ≤ f.names.count name := by
  obtain ⟨k, -, heq⟩ := exists_afterPasses_of_simplify h
  rw [heq]
  exact Nat.le_trans (count_names_afterPasses_le k f.normalize name)
    (count_names_normalize_le f name)

/-- Normalization, a reduction step and simplification never make a variable occur more often,
whatever the names are, so the variables of the result are variables of the formula. -/
theorem count_names_simplification_le (f : Formula) (name : String) :
    f.normalize.names.count name ≤ f.names.count name ∧
      f.step.names.count name ≤ f.names.count name ∧
      ∀ given s, f.simplify given = .ok s →
        s.formula.names.count name ≤ f.names.count name ∧ s.formula.vars ⊆ f.vars := by
  refine ⟨count_names_normalize_le f name, count_names_step_le f name, ?_⟩
  intro given s h
  refine ⟨count_names_simplify_le h name, ?_⟩
  intro other hother
  rw [mem_vars] at hother ⊢
  exact mem_names_of_count_le (count_names_simplify_le h) hother

/-- Two operands have the same key here, though they are different conjunctions. -/
theorem count_names_simplification_le_colliding_keys :
    let f : Formula := .nary .or [.nary .and [.var "a", .var "b),VAR(c"],
      .nary .and [.var "c", .var "b", .var "a"], .nary .and [.var "a", .var "d"]]
    let s : Simplification := ⟨.nary .and [.var "a", .nary .or [.var "b),VAR(c", .var "d"]],
      [⟨.idempotence .or, "a & b),VAR(c | a & b & c | a & d", "a & b),VAR(c | a & d"⟩,
        ⟨.distribution .or, "a & b),VAR(c | a & d", "a & (b),VAR(c | d)"⟩]⟩
    f.simplify none = .ok s ∧ s.formula.names.count "a" ≤ f.names.count "a" ∧
      s.formula.vars ⊆ f.vars := by
  intro f s
  have hresult : f.simplify none = .ok s := by cbv
  obtain ⟨-, -, hresult'⟩ := count_names_simplification_le f "a"
  exact ⟨hresult, hresult' none s hresult⟩

end Formula

end BooleanSteps
