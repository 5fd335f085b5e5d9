import BooleanSteps.Normalization

/-!
# Operand lists

What building, collapsing, splicing, thinning and sorting do to a list of operands.
These are the facts that every property of normalization and of the laws rests on.
-/

namespace BooleanSteps.Formula

/-! ## Collapsing and splicing -/

@[simp] theorem collapse_singleton (c : Connective) (f : Formula) : collapse c [f] = f := rfl

theorem collapse_eq_nary {c : Connective} {fs : List Formula} (h : 2 ≤ fs.length) :
    collapse c fs = .nary c fs := by
  match fs, h with
  | _ :: _ :: _, _ => rfl

/-- What holds of the neutral constant, of a lone operand and of a node with two
operands or more holds of a collapsed list. -/
@[elab_as_elim]
theorem collapse_cases {motive : Formula → Prop} (c : Connective) (fs : List Formula)
    (nil : fs = [] → motive (.const c.neutral)) (single : ∀ f, fs = [f] → motive f)
    (many : 2 ≤ fs.length → motive (.nary c fs)) : motive (collapse c fs) := by
  match fs with
  | [] => exact nil rfl
  | [f] => exact single f rfl
  | _ :: _ :: _ => exact many (by simp)

theorem splice_of_operands?_eq_none {c : Connective} {f : Formula} (h : f.operands? c = none) :
    splice c f = [f] := by
  simp [splice, h]

/-- A formula is taken in as it is, unless it is a node of the connective. -/
theorem splice_eq (c : Connective) (f : Formula) :
    (splice c f = [f] ∧ f.operands? c = none) ∨ ∃ fs, f = .nary c fs ∧ splice c f = fs := by
  cases h : f.operands? c with
  | none => exact .inl ⟨splice_of_operands?_eq_none h, rfl⟩
  | some fs =>
      rw [operands?_eq_some_iff] at h
      subst h
      exact .inr ⟨fs, rfl, splice_nary c fs⟩

theorem mem_splice_iff {c : Connective} {f g : Formula} :
    g ∈ splice c f ↔ (g = f ∧ f.operands? c = none) ∨ ∃ fs, f = .nary c fs ∧ g ∈ fs := by
  rcases splice_eq c f with ⟨heq, hnone⟩ | ⟨fs, rfl, heq⟩
  · have hnary : ∀ fs, f ≠ .nary c fs := fun fs h => by simp [h] at hnone
    simp [heq, hnone, hnary]
  · simp

theorem flatMap_splice_of_not_nested {c : Connective} {fs : List Formula}
    (h : ∀ f ∈ fs, f.operands? c = none) : fs.flatMap (splice c) = fs := by
  induction fs with
  | nil => rfl
  | cons f fs ih =>
      obtain ⟨hhead, htail⟩ := List.forall_mem_cons.mp h
      simp [splice_of_operands?_eq_none hhead, ih htail]

/-! ## Distinct operands -/

/-- An induction for `distinct`: the tail is thinned after the equivalents of the
head are gone. -/
theorem distinct_induction {motive : List Formula → Prop} (nil : motive [])
    (cons : ∀ f fs, motive (fs.filter fun g => !g.equivalent f) → motive (f :: fs))
    (fs : List Formula) : motive fs := by
  generalize hn : fs.length = n
  induction n using Nat.strongRecOn generalizing fs with
  | ind n ih =>
      cases fs with
      | nil => exact nil
      | cons f fs =>
          apply cons
          refine ih _ ?_ _ rfl
          have hle := List.length_filter_le (fun g => !g.equivalent f) fs
          simp only [List.length_cons] at hn
          omega

theorem distinct_sublist (fs : List Formula) : (distinct fs).Sublist fs := by
  induction fs using distinct_induction with
  | nil => exact List.Sublist.refl []
  | cons f fs ih =>
      rw [distinct_cons]
      exact (ih.trans List.filter_sublist).cons_cons f

theorem mem_of_mem_distinct {f : Formula} {fs : List Formula} (h : f ∈ distinct fs) : f ∈ fs :=
  (distinct_sublist fs).subset h

theorem pairwise_distinct (fs : List Formula) :
    (distinct fs).Pairwise fun f g => f.key ≠ g.key := by
  induction fs using distinct_induction with
  | nil => exact List.Pairwise.nil
  | cons f fs ih =>
      rw [distinct_cons]
      refine List.Pairwise.cons ?_ ih
      intro g hg heq
      have hkept := (List.mem_filter.mp (mem_of_mem_distinct hg)).2
      simp [equivalent, heq] at hkept

theorem exists_mem_distinct {f : Formula} {fs : List Formula} (h : f ∈ fs) :
    ∃ g ∈ distinct fs, g.key = f.key := by
  induction fs using distinct_induction with
  | nil => exact absurd h List.not_mem_nil
  | cons head fs ih =>
      rw [distinct_cons]
      by_cases hkey : f.key = head.key
      · exact ⟨head, List.mem_cons_self, hkey.symm⟩
      · have hf : f ∈ fs := (List.mem_cons.mp h).resolve_left fun heq => hkey (heq ▸ rfl)
        obtain ⟨g, hg, heq⟩ := ih (List.mem_filter.mpr ⟨hf, by simpa [equivalent] using hkey⟩)
        exact ⟨g, List.mem_cons_of_mem _ hg, heq⟩

theorem distinct_eq_self {fs : List Formula} (h : fs.Pairwise fun f g => f.key ≠ g.key) :
    distinct fs = fs := by
  induction fs using distinct_induction with
  | nil => rfl
  | cons f fs ih =>
      obtain ⟨hhead, htail⟩ := List.pairwise_cons.mp h
      have hfilter : (fs.filter fun g => !g.equivalent f) = fs := by
        rw [List.filter_eq_self]
        intro g hg
        simpa [equivalent] using fun heq => hhead g hg (Eq.symm heq)
      rw [hfilter] at ih
      rw [distinct_cons, hfilter, ih htail]

/-- Nothing is lost exactly when no two operands are equivalent. -/
theorem length_distinct_eq_iff {fs : List Formula} :
    (distinct fs).length = fs.length ↔ fs.Pairwise fun f g => f.key ≠ g.key := by
  constructor
  · intro h
    have heq := (distinct_sublist fs).eq_of_length h
    rw [← heq]
    exact pairwise_distinct fs
  · intro h
    rw [distinct_eq_self h]

/-! ## Sorted operands -/

theorem sortOperands_perm (fs : List Formula) : (sortOperands fs).Perm fs :=
  List.mergeSort_perm _ _

@[simp] theorem mem_sortOperands {f : Formula} {fs : List Formula} :
    f ∈ sortOperands fs ↔ f ∈ fs := (sortOperands_perm fs).mem_iff

theorem pairwise_sortOperands (fs : List Formula) :
    (sortOperands fs).Pairwise fun f g => f.render ≤ g.render := by
  have h : (sortOperands fs).Pairwise fun f g => decide (f.render ≤ g.render) = true :=
    List.pairwise_mergeSort (by simpa using fun _ _ _ => String.le_trans)
      (by simpa using fun f g : Formula => String.le_total f.render g.render) fs
  simpa using h

theorem sortOperands_eq_self {fs : List Formula}
    (h : fs.Pairwise fun f g => f.render ≤ g.render) : sortOperands fs = fs :=
  List.mergeSort_of_pairwise (by simpa using h)

end BooleanSteps.Formula
