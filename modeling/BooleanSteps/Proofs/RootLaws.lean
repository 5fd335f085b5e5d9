import BooleanSteps.Law.Instance
import BooleanSteps.NormalForm
import BooleanSteps.Reduction
import BooleanSteps.Proofs.Operands

/-!
# What a law at the root does

The search for a law is described twice, once for each outcome. If it finds a law,
the two formulas are an instance of that law. If it finds none, no law of the
connective has an instance with these operands.
-/

namespace BooleanSteps

/-! ## Searching pairs -/

section Pairs

variable {α β : Type}

theorem exists_of_firstPair_eq_some {pick : α → α → Option β} {l : List α} {answer : β}
    (h : firstPair pick l = some answer) :
    ∃ a b, [a, b].Sublist l ∧ pick a b = some answer := by
  induction l with
  | nil => simp [firstPair] at h
  | cons head rest ih =>
      unfold firstPair at h
      split at h
      next found hfound =>
        obtain ⟨b, hb, hpick⟩ := List.exists_of_findSome?_eq_some hfound
        cases h
        exact ⟨head, b, (List.singleton_sublist.mpr hb).cons_cons head, hpick⟩
      next =>
        obtain ⟨a, b, hsub, hpick⟩ := ih h
        exact ⟨a, b, hsub.cons head, hpick⟩

theorem firstPair_eq_none_iff {pick : α → α → Option β} {l : List α} :
    firstPair pick l = none ↔ l.Pairwise fun a b => pick a b = none := by
  induction l with
  | nil => simp [firstPair]
  | cons head rest ih =>
      rw [List.pairwise_cons, ← ih, ← List.findSome?_eq_none_iff, firstPair]
      split
      next answer hfound => simp [hfound]
      next hnone => simp [hnone]

/-- A list around one of its places. -/
theorem exists_eq_append_of_getElem? {l : List α} {i : Nat} {a : α} (h : l[i]? = some a) :
    ∃ before after, l = before ++ a :: after ∧ before.length = i := by
  obtain ⟨hi, rfl⟩ := List.getElem?_eq_some_iff.mp h
  refine ⟨l.take i, l.drop (i + 1), ?_, ?_⟩
  · rw [List.getElem_cons_drop, List.take_append_drop]
  · exact List.length_take_of_le (Nat.le_of_lt hi)

/-- A list around two of its places. -/
theorem exists_eq_append_of_two_getElem? {l : List α} {i j : Nat} {a b : α} (hij : i < j)
    (hi : l[i]? = some a) (hj : l[j]? = some b) :
    ∃ first second third, l = first ++ a :: second ++ b :: third ∧
      (l.eraseIdx j).eraseIdx i = first ++ second ++ third := by
  obtain ⟨before, third, rfl, rfl⟩ := exists_eq_append_of_getElem? hj
  rw [List.getElem?_append_left hij] at hi
  obtain ⟨first, second, rfl, rfl⟩ := exists_eq_append_of_getElem? hi
  refine ⟨first, second, third, rfl, ?_⟩
  rw [List.eraseIdx_append_of_length_le (Nat.le_refl _), Nat.sub_self, List.eraseIdx_cons_zero,
    List.append_assoc, List.eraseIdx_append_of_length_le (Nat.le_refl _), Nat.sub_self]
  simp

end Pairs

theorem Thins.sublist {earlier fs gs : List Formula} (h : Thins earlier fs gs) :
    gs.Sublist fs := by
  induction h with
  | nil => exact List.Sublist.refl []
  | keep f _ ih => exact ih.cons_cons f
  | drop f _ _ ih => exact ih.cons f

namespace Formula

/-! ## Idempotence -/

theorem isAmong_cons (f e : Formula) (es : List Formula) :
    f.isAmong (e :: es) = (f.equivalent e || f.isAmong es) := by
  simp [isAmong, equivalent, BEq.comm]

/-- Thinning after some formulas that came before. -/
theorem thins_distinct_filter (earlier fs : List Formula) :
    Thins earlier fs (distinct (fs.filter fun f => !f.isAmong earlier)) := by
  -- Every formula joins the earlier ones, also one that goes: those it would make go
  -- are equivalent to an earlier one already.
  induction fs generalizing earlier with
  | nil => exact Thins.nil earlier
  | cons f fs ih =>
      cases hmem : f.isAmong earlier with
      | true =>
          have hseen : ∃ e ∈ earlier, e.key = f.key := isAmong_iff.mp hmem
          have hsame : (fs.filter fun g => !g.isAmong earlier) =
              fs.filter fun g => !g.isAmong (f :: earlier) := by
            apply List.filter_congr
            intro g _
            rw [isAmong_cons]
            cases hg : g.equivalent f with
            | false => rfl
            | true =>
                obtain ⟨e, he, hkey⟩ := hseen
                have hamong : g.isAmong earlier = true :=
                  isAmong_iff.mpr ⟨e, he, hkey.trans (equivalent_iff.mp hg).symm⟩
                rw [hamong]
                rfl
          rw [List.filter_cons_of_neg (by simp [hmem]), hsame]
          exact Thins.drop f hseen (ih (f :: earlier))
      | false =>
          rw [List.filter_cons_of_pos (by simp [hmem]), distinct_cons, List.filter_filter]
          have hsame : (fs.filter fun g => !g.equivalent f && !g.isAmong earlier) =
              fs.filter fun g => !g.isAmong (f :: earlier) := by
            apply List.filter_congr
            intro g _
            rw [isAmong_cons, Bool.not_or]
          rw [hsame]
          exact Thins.keep f (ih (f :: earlier))

theorem thins_distinct (fs : List Formula) : Thins [] fs (distinct fs) := by
  have hall : (fs.filter fun f => !f.isAmong []) = fs := List.filter_eq_self.mpr fun _ _ => rfl
  have h := thins_distinct_filter [] fs
  rwa [hall] at h

/-! ## Complements -/

theorem hasComplement_iff {fs : List Formula} :
    hasComplement fs = true ↔ ∃ f, .not f ∈ fs ∧ ∃ g ∈ fs, g.key = f.key := by
  unfold hasComplement
  rw [List.any_eq_true]
  constructor
  · rintro ⟨g, hg, hcomplement⟩
    split at hcomplement
    next f => exact ⟨f, hg, isAmong_iff.mp hcomplement⟩
    next => cases hcomplement
  · rintro ⟨f, hf, hamong⟩
    exact ⟨.not f, hf, isAmong_iff.mpr hamong⟩

/-! ## Absorption -/

theorem mem_operandKeys {c : Connective} {f g : Formula} :
    f.key ∈ operandKeys c.dual g ↔ HasOperand c f g := by
  unfold operandKeys HasOperand
  cases h : g.operands? c.dual with
  | none =>
      have hne : ∀ gs, g ≠ .nary c.dual gs := fun gs heq => by simp [heq] at h
      simp [hne]
  | some gs =>
      rw [operands?_eq_some_iff] at h
      subst h
      simp

/-- The search for an absorbed operand, with operands in place of keys. -/
theorem absorbed?_eq_some {c : Connective} {fs : List Formula} {j : Nat}
    (h : absorbed? c fs = some j) :
    ∃ (i : Nat) (f g : Formula), fs[i]? = some f ∧ fs[j]? = some g ∧ i ≠ j ∧
      HasOperand c f g := by
  obtain ⟨⟨key, i⟩, hi, h⟩ := List.exists_of_findSome?_eq_some h
  obtain ⟨⟨keys, j'⟩, hj, h⟩ := List.exists_of_findSome?_eq_some h
  obtain ⟨⟨hne, hkey⟩, heq⟩ := Option.ite_none_right_eq_some.mp h
  cases heq
  rw [List.mk_mem_zipIdx_iff_getElem?, List.getElem?_map, Option.map_eq_some_iff] at hi hj
  obtain ⟨f, hf, rfl⟩ := hi
  obtain ⟨g, hg, rfl⟩ := hj
  exact ⟨i, f, g, hf, hg, hne, mem_operandKeys.mp hkey⟩

theorem absorbed?_eq_none {c : Connective} {fs : List Formula} (h : absorbed? c fs = none)
    {i j : Nat} {f g : Formula} (hi : fs[i]? = some f) (hj : fs[j]? = some g) (hne : i ≠ j) :
    ¬ HasOperand c f g := by
  unfold absorbed? at h
  simp only [List.findSome?_eq_none_iff, Prod.forall] at h
  have hkey : (f.key, i) ∈ (fs.map key).zipIdx := by
    rw [List.mk_mem_zipIdx_iff_getElem?, List.getElem?_map, hi, Option.map_some]
  have hheld : (operandKeys c.dual g, j) ∈ (fs.map (operandKeys c.dual)).zipIdx := by
    rw [List.mk_mem_zipIdx_iff_getElem?, List.getElem?_map, hj, Option.map_some]
  have hnone := h _ _ hkey _ _ hheld
  intro hheld
  rw [if_pos ⟨hne, mem_operandKeys.mpr hheld⟩] at hnone
  cases hnone

/-! ## Distribution -/

/-- The operands that are nodes of `c`, each by its place and its own operands. -/
def placedOperands (c : Connective) (fs : List Formula) : List (Nat × List Formula) :=
  fs.zipIdx.filterMap fun (f, i) => (f.operands? c).map (i, ·)

theorem mem_placedOperands {c : Connective} {fs gs : List Formula} {i : Nat}
    (h : (i, gs) ∈ placedOperands c fs) : fs[i]? = some (.nary c gs) := by
  obtain ⟨⟨f, i'⟩, hmem, heq⟩ := List.mem_filterMap.mp h
  obtain ⟨gs', hgs, heq⟩ := Option.map_eq_some_iff.mp heq
  cases heq
  rw [operands?_eq_some_iff] at hgs
  subst hgs
  exact List.mk_mem_zipIdx_iff_getElem?.mp hmem

theorem pairwise_zipIdx (fs : List Formula) :
    fs.zipIdx.Pairwise fun a b => a.2 < b.2 := by
  have h : (fs.zipIdx.map Prod.snd).Pairwise (· < ·) := by
    rw [List.zipIdx_map_snd]
    exact List.pairwise_lt_range'
  exact List.pairwise_map.mp h

theorem pairwise_placedOperands (c : Connective) (fs : List Formula) :
    (placedOperands c fs).Pairwise fun a b => a.1 < b.1 := by
  unfold placedOperands
  rw [List.pairwise_filterMap]
  refine (pairwise_zipIdx fs).imp ?_
  rintro ⟨f, i⟩ ⟨g, j⟩ hij ⟨i', fs'⟩ hf ⟨j', gs'⟩ hg
  obtain ⟨_, _, heq⟩ := Option.map_eq_some_iff.mp hf
  cases heq
  obtain ⟨_, _, heq⟩ := Option.map_eq_some_iff.mp hg
  cases heq
  exact hij

/-- Two operands of the dual connective with a common operand, and what becomes of
them and the others. -/
theorem distributed?_eq_some {c : Connective} {fs : List Formula} {g : Formula}
    (h : distributed? c fs = some g) : (Law.distribution c).Relates (.nary c fs) g := by
  obtain ⟨⟨i, left⟩, ⟨j, right⟩, hsub, hpick⟩ := exists_of_firstPair_eq_some h
  have hij : i < j := by
    simpa using (pairwise_placedOperands c.dual fs).sublist hsub
  have hleft : fs[i]? = some (.nary c.dual left) :=
    mem_placedOperands (hsub.subset (by simp))
  have hright : fs[j]? = some (.nary c.dual right) :=
    mem_placedOperands (hsub.subset (by simp))
  obtain ⟨factored, hfactored, rfl⟩ := Option.map_eq_some_iff.mp hpick
  obtain ⟨common, hcommon, rfl⟩ := Option.map_eq_some_iff.mp hfactored
  obtain ⟨first, second, third, heq, herase⟩ :=
    exists_eq_append_of_two_getElem? hij hleft hright
  have hamong := List.find?_some hcommon
  rw [herase, heq]
  exact Law.Relates.distribution c first second third left right common
    (List.mem_of_find?_eq_some hcommon) (isAmong_iff.mp hamong)

theorem distributed?_eq_none {c : Connective} {fs : List Formula}
    (h : distributed? c fs = none) : fs.Pairwise fun f g => ¬ ShareOperand c f g := by
  have hpairs := firstPair_eq_none_iff.mp h
  rw [List.pairwise_filterMap] at hpairs
  rw [← List.zipIdx_map_fst 0 fs, List.pairwise_map]
  refine hpairs.imp ?_
  rintro ⟨f, i⟩ ⟨g, j⟩ hnone ⟨left, rfl, k, hk, right, rfl, hshared⟩
  have hfactor := hnone (i, left) (by simp) (j, right) (by simp)
  rw [Option.map_eq_none_iff] at hfactor
  unfold factor? at hfactor
  rw [Option.map_eq_none_iff, List.find?_eq_none] at hfactor
  exact hfactor k hk (isAmong_iff.mpr hshared)

/-! ## The law of a node -/

theorem absorbed?_relates {c : Connective} {fs : List Formula} {j : Nat}
    (h : absorbed? c fs = some j) :
    (Law.absorption c).Relates (.nary c fs) (collapse c (fs.eraseIdx j)) := by
  obtain ⟨i, f, g, hi, hj, hne, gs, rfl, k, hk, hkey⟩ := absorbed?_eq_some h
  have hf : f ∈ fs.eraseIdx j := List.mem_eraseIdx_iff_getElem?.mpr ⟨i, hne, hi⟩
  obtain ⟨before, after, rfl, rfl⟩ := exists_eq_append_of_getElem? hj
  rw [List.eraseIdx_append_of_length_le (Nat.le_refl _), Nat.sub_self,
    List.eraseIdx_cons_zero] at hf ⊢
  exact Law.Relates.absorption c before after gs f k hf hk hkey

theorem connectiveLaw?_relates {c : Connective} {fs : List Formula} {law : Law} {g : Formula}
    (h : connectiveLaw? c fs = some (law, g)) : law.Relates (.nary c fs) g := by
  unfold connectiveLaw? at h
  split at h
  next hneutral =>
    cases h
    exact Law.Relates.identity c fs hneutral
  split at h
  next habsorbing =>
    cases h
    exact Law.Relates.annulment c fs habsorbing
  split at h
  next hlength =>
    cases h
    have hle := (distinct_sublist fs).length_le
    exact Law.Relates.idempotence c fs (distinct fs) _ (thins_distinct fs) (by omega) (.inl rfl)
  split at h
  next hcomplement =>
    cases h
    obtain ⟨f, hf, g, hg, hkey⟩ := hasComplement_iff.mp hcomplement
    exact Law.Relates.complement c fs g f hg hf hkey.symm
  split at h
  next j habsorbed =>
    cases h
    exact absorbed?_relates habsorbed
  next =>
    obtain ⟨factored, hdistributed, heq⟩ := Option.map_eq_some_iff.mp h
    cases heq
    exact distributed?_eq_some hdistributed

theorem negationLaw?_relates {f : Formula} {law : Law} {g : Formula}
    (h : f.negationLaw? = some (law, g)) : law.Relates (.not f) g := by
  cases f with
  | const value =>
      cases h
      exact Law.Relates.constantComplement value
  | var name => cases h
  | not f =>
      cases h
      exact Law.Relates.doubleNegation _
  | nary c fs =>
      cases h
      exact Law.Relates.deMorgan c fs
  | xor l r => cases h

theorem xorLaw?_relates {l r : Formula} {law : Law} {g : Formula}
    (h : xorLaw? l r = some (law, g)) : law.Relates (.xor l r) g := by
  unfold xorLaw? at h
  split at h
  next hr =>
    cases h
    subst hr
    exact Law.Relates.xorIdentityRight l
  split at h
  next hl =>
    cases h
    subst hl
    exact Law.Relates.xorIdentityLeft r
  split at h
  next hr =>
    cases h
    subst hr
    exact Law.Relates.xorWithOneRight l
  split at h
  next hl =>
    cases h
    subst hl
    exact Law.Relates.xorWithOneLeft r
  split at h
  next hkey =>
    cases h
    exact Law.Relates.xorCancellation l r (equivalent_iff.mp hkey)
  next => cases h

/-- The law found at a root relates the formula to what it becomes. -/
theorem rootLaw?_relates {f : Formula} {law : Law} {g : Formula}
    (h : f.rootLaw? = some (law, g)) : law.Relates f g := by
  cases f with
  | const value => cases h
  | var name => cases h
  | not f => exact negationLaw?_relates h
  | nary c fs => exact connectiveLaw?_relates h
  | xor l r => exact xorLaw?_relates h

/-- If no law is found for a node, its operands are pairwise different, none is a
constant, and none is held by, complements or can be factored with another. -/
theorem connectiveLaw?_eq_none {c : Connective} {fs : List Formula}
    (h : connectiveLaw? c fs = none) :
    (∀ f ∈ fs, ∀ value, f ≠ .const value) ∧ (fs.Pairwise fun f g => f.key ≠ g.key) ∧
      (∀ f, .not f ∈ fs → ∀ g ∈ fs, g.key ≠ f.key) ∧
      (fs.Pairwise fun f g => ¬ HasOperand c f g ∧ ¬ HasOperand c g f) ∧
      fs.Pairwise fun f g => ¬ ShareOperand c f g := by
  unfold connectiveLaw? at h
  split at h
  next => cases h
  next hneutral =>
  split at h
  next => cases h
  next habsorbing =>
  split at h
  next => cases h
  next hlength =>
  split at h
  next => cases h
  next hcomplement =>
  split at h
  next => cases h
  next habsorbed =>
  refine ⟨?_, length_distinct_eq_iff.mp (Decidable.not_not.mp hlength), ?_, ?_, ?_⟩
  · rintro f hf value rfl
    cases c <;> cases value <;>
      simp_all [Connective.neutral, Connective.absorbing]
  · intro f hf g hg hkey
    exact hcomplement (hasComplement_iff.mpr ⟨f, hf, g, hg, hkey⟩)
  · rw [List.pairwise_iff_getElem]
    intro i j hi hj hij
    have hne : i ≠ j := Nat.ne_of_lt hij
    exact ⟨absorbed?_eq_none habsorbed (List.getElem?_eq_getElem hi)
        (List.getElem?_eq_getElem hj) hne,
      absorbed?_eq_none habsorbed (List.getElem?_eq_getElem hj)
        (List.getElem?_eq_getElem hi) hne.symm⟩
  · exact distributed?_eq_none (Option.map_eq_none_iff.mp h)

theorem negationLaw?_eq_none {f : Formula} (h : f.negationLaw? = none) :
    (∃ name, f = .var name) ∨ ∃ l r, f = .xor l r := by
  cases f with
  | const value => cases h
  | var name => exact .inl ⟨name, rfl⟩
  | not f => cases h
  | nary c fs => cases h
  | xor l r => exact .inr ⟨l, r, rfl⟩

theorem xorLaw?_eq_none {l r : Formula} (h : xorLaw? l r = none) :
    (∀ value, l ≠ .const value) ∧ (∀ value, r ≠ .const value) ∧ l.key ≠ r.key := by
  unfold xorLaw? at h
  split at h
  next => cases h
  next hrfalse =>
  split at h
  next => cases h
  next hlfalse =>
  split at h
  next => cases h
  next hrtrue =>
  split at h
  next => cases h
  next hltrue =>
  split at h
  next => cases h
  next hkey =>
  refine ⟨?_, ?_, fun heq => hkey (equivalent_iff.mpr heq)⟩
  · rintro (_ | _) <;> assumption
  · rintro (_ | _) <;> assumption

end Formula

end BooleanSteps
