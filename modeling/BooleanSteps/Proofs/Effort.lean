import BooleanSteps.Proofs.Normality
import BooleanSteps.Proofs.Quiescence

/-!
# The effort that a formula may still take

A number that every pass with a law decreases and that is linear in the size of a
formula. It has two parts. The weight counts leaves; all laws lose weight, except
those of negation, which keep it. The travel counts the passes that negations need
to reach the leaves, all of them moving down one node in each pass.

A negation stops at XOR and moves on only when the other operand has become a
constant. Up to then both operands change on their own, so the travel of one operand
has to wait at most for the travel of the other, and not at all for an operand that
is still: it will never become a constant.
-/

namespace BooleanSteps.Formula

/-! ## Weight -/

mutual

/-- Three for each leaf and a little for each connective. A connective with fewer than
two operands counts as a leaf, since it may leave a constant behind. -/
def weight : Formula → Nat
  | .const _ | .var _ => 3
  | .not f => f.weight
  | .nary _ fs => (if fs.length < 2 then 3 else 1) + weights fs
  | .xor l r => l.weight + r.weight

/-- The weight of several formulas together. -/
def weights : List Formula → Nat
  | [] => 0
  | f :: fs => f.weight + weights fs

end

@[simp] theorem weight_const (value : Bool) : weight (.const value) = 3 := rfl

@[simp] theorem weight_not (f : Formula) : weight (.not f) = f.weight := rfl

@[simp] theorem weight_xor (l r : Formula) : weight (.xor l r) = l.weight + r.weight := rfl

theorem weight_nary (c : Connective) (fs : List Formula) :
    weight (.nary c fs) = (if fs.length < 2 then 3 else 1) + weights fs := rfl

@[simp] theorem weights_nil : weights [] = 0 := rfl

@[simp] theorem weights_cons (f : Formula) (fs : List Formula) :
    weights (f :: fs) = f.weight + weights fs := rfl

@[simp] theorem weights_append (fs gs : List Formula) :
    weights (fs ++ gs) = weights fs + weights gs := by
  induction fs with
  | nil => simp
  | cons f fs ih => simp [ih, Nat.add_assoc]

theorem weight_le_weights {f : Formula} {fs : List Formula} (h : f ∈ fs) :
    f.weight ≤ weights fs := by
  obtain ⟨before, after, rfl⟩ := List.append_of_mem h
  simp only [weights_append, weights_cons]
  omega

theorem weights_le_of_sublist {fs gs : List Formula} (h : fs.Sublist gs) :
    weights fs ≤ weights gs := by
  induction h with
  | slnil => exact Nat.le_refl _
  | cons f _ ih => exact Nat.le_trans ih (Nat.le_add_left _ _)
  | cons_cons f _ ih => exact Nat.add_le_add_left ih _

theorem weights_perm {fs gs : List Formula} (h : fs.Perm gs) : weights fs = weights gs := by
  induction h with
  | nil => rfl
  | cons f _ ih => rw [weights_cons, weights_cons, ih]
  | swap f g fs => simp only [weights_cons]; omega
  | trans _ _ ihfg ihgh => exact ihfg.trans ihgh

theorem three_le_weight (f : Formula) : 3 ≤ f.weight := by
  induction f with
  | const value => exact Nat.le_refl _
  | var name => exact Nat.le_refl _
  | not f ih => exact ih
  | nary c fs ih =>
      rw [weight_nary]
      split
      next => omega
      next hlen =>
        match fs, hlen with
        | f :: g :: fs, _ =>
          have hf := ih f (by simp)
          simp only [weights_cons]
          omega
        | [_], hlen => exact absurd (by simp) hlen
        | [], hlen => exact absurd (by simp) hlen
  | xor l r ihl ihr => rw [weight_xor]; omega

theorem weights_add_three_le {fs gs : List Formula} (h : gs.Sublist fs)
    (hlen : gs.length < fs.length) : weights gs + 3 ≤ weights fs := by
  induction h with
  | slnil => exact absurd hlen (Nat.lt_irrefl 0)
  | cons f hsub _ =>
      have hle := weights_le_of_sublist hsub
      have hthree := three_le_weight f
      rw [weights_cons]
      omega
  | cons_cons f _ ih =>
      have hle := ih (Nat.lt_of_succ_lt_succ hlen)
      rw [weights_cons, weights_cons]
      omega

/-- A formula that is filtered out, and what is left as one node. -/
theorem weight_collapse_filter_le (c : Connective) {f : Formula} {fs : List Formula}
    {p : Formula → Bool} (hf : f ∈ fs) (hp : p f = false) :
    (collapse c (fs.filter p)).weight + f.weight ≤ weight (.nary c fs) := by
  have hweights : weights (fs.filter p) + f.weight ≤ weights fs := by
    obtain ⟨before, after, rfl⟩ := List.append_of_mem hf
    have hbefore := weights_le_of_sublist (List.filter_sublist (p := p) (l := before))
    have hafter := weights_le_of_sublist (List.filter_sublist (p := p) (l := after))
    rw [List.filter_append, List.filter_cons_of_neg (by simp [hp])]
    simp only [weights_append, weights_cons]
    omega
  rw [weight_nary]
  refine collapse_cases c (fs.filter p) ?_ ?_ ?_
  · intro hnil
    rw [weight_const]
    split
    next => have := weight_le_weights hf; omega
    next hlen =>
      -- Two operands were filtered out, the second pays for the constant.
      match fs, hlen with
      | f' :: g' :: fs, _ =>
        have hf' := three_le_weight f'
        have hg' := three_le_weight g'
        rcases List.mem_cons.mp hf with rfl | hf
        · simp only [weights_cons]; omega
        · have hle := weight_le_weights hf
          simp only [weights_cons] at hle ⊢
          omega
      | [_], hlen => exact absurd (by simp) hlen
      | [], hlen => exact absurd (by simp) hlen
  · intro g heq
    rw [heq, weights_cons, weights_nil] at hweights
    split <;> omega
  · intro hlen
    have hle := List.length_filter_le p fs
    rw [weight_nary, if_neg (by omega), if_neg (by omega)]
    omega

/-! ## Travel -/

/-- The formula is normal, quiet and no constant, so it never changes again. -/
def IsStill (f : Formula) : Prop := f.normalize = f ∧ f.IsQuiet ∧ f.NoConst

instance (f : Formula) : Decidable f.IsStill :=
  inferInstanceAs (Decidable (_ ∧ _ ∧ ∀ value, f ≠ .const value))

mutual

/-- The passes that the negations in a formula may travel. If one is pending, the
formula is taken with a negation in front of it. -/
def travel : Bool → Formula → Nat
  | pending, .const _ => pending.toNat
  | _, .var _ => 0
  | pending, .not f => f.travel true + pending.toNat
  | pending, .nary _ fs => travels pending fs + pending.toNat
  | _, .xor l r =>
      max (if r.IsStill then 0 else l.travel true + r.travel false)
        (if l.IsStill then 0 else r.travel true + l.travel false)

/-- The most that negations travel in one of several formulas. -/
def travels : Bool → List Formula → Nat
  | _, [] => 0
  | pending, f :: fs => max (f.travel pending) (travels pending fs)

end

theorem travel_const (pending : Bool) (value : Bool) :
    travel pending (.const value) = pending.toNat := by
  rw [travel]

theorem travel_not (pending : Bool) (f : Formula) :
    travel pending (.not f) = f.travel true + pending.toNat := by
  rw [travel]

theorem travel_nary (pending : Bool) (c : Connective) (fs : List Formula) :
    travel pending (.nary c fs) = travels pending fs + pending.toNat := by
  rw [travel]

/-- The passes until a negation has travelled in `g` that is set free if `f` becomes a
constant. -/
def release (f g : Formula) : Nat :=
  if f.IsStill then 0 else g.travel true + f.travel false

theorem travel_xor (pending : Bool) (l r : Formula) :
    travel pending (.xor l r) = max (release r l) (release l r) := by
  rw [travel]
  rfl

theorem release_of_isStill {f : Formula} (h : f.IsStill) (g : Formula) : release f g = 0 :=
  if_pos h

theorem release_of_not_isStill {f : Formula} (h : ¬ f.IsStill) (g : Formula) :
    release f g = g.travel true + f.travel false :=
  if_neg h

theorem release_le (f g : Formula) : release f g ≤ g.travel true + f.travel false := by
  unfold release
  split
  next => exact Nat.zero_le _
  next => exact Nat.le_refl _

theorem travels_le_iff {pending : Bool} {fs : List Formula} {n : Nat} :
    travels pending fs ≤ n ↔ ∀ f ∈ fs, f.travel pending ≤ n := by
  induction fs with
  | nil => simp [travels]
  | cons f fs ih => rw [travels, Nat.max_le, List.forall_mem_cons, ih]

theorem travel_le_travels {pending : Bool} {f : Formula} {fs : List Formula} (h : f ∈ fs) :
    f.travel pending ≤ travels pending fs :=
  travels_le_iff.mp (Nat.le_refl _) f h

theorem travels_mono {pending : Bool} {fs gs : List Formula} (h : ∀ f ∈ fs, f ∈ gs) :
    travels pending fs ≤ travels pending gs :=
  travels_le_iff.mpr fun f hf => travel_le_travels (h f hf)

/-- A pending negation takes no less. -/
theorem travel_false_le (f : Formula) : f.travel false ≤ f.travel true := by
  induction f with
  | const value => simp [travel_const]
  | var name => exact Nat.le_refl _
  | not f ih => simp [travel_not]
  | nary c fs ih =>
      have hle : travels false fs ≤ travels true fs :=
        travels_le_iff.mpr fun f hf => Nat.le_trans (ih f hf) (travel_le_travels hf)
      rw [travel_nary, travel_nary, Bool.toNat_false, Bool.toNat_true]
      omega
  | xor l r ihl ihr => exact Nat.le_refl _

theorem travel_collapse_le (pending : Bool) (c : Connective) (fs : List Formula) :
    (collapse c fs).travel pending ≤ travel pending (.nary c fs) := by
  refine collapse_cases c fs ?_ ?_ ?_
  · intro _
    rw [travel_const, travel_nary]
    exact Nat.le_add_left _ _
  · intro f heq
    rw [travel_nary, heq]
    exact Nat.le_add_right_of_le (travel_le_travels (List.mem_singleton_self f))
  · exact fun _ => Nat.le_refl _

theorem travel_nary_mono {pending : Bool} {c d : Connective} {fs gs : List Formula}
    (h : ∀ f ∈ fs, f ∈ gs) :
    travel pending (.nary c fs) ≤ travel pending (.nary d gs) := by
  rw [travel_nary, travel_nary]
  exact Nat.add_le_add_right (travels_mono h) _

theorem not_isStill_const (value : Bool) : ¬ IsStill (.const value) :=
  fun h => h.2.2 value rfl

theorem travel_le_xor_const (pending value : Bool) (f : Formula) :
    f.travel true ≤ travel pending (.xor f (.const value)) := by
  rw [travel_xor, release_of_not_isStill (not_isStill_const value)]
  exact Nat.le_trans (Nat.le_add_right _ _) (Nat.le_max_left _ _)

theorem travel_le_const_xor (pending value : Bool) (f : Formula) :
    f.travel true ≤ travel pending (.xor (.const value) f) := by
  rw [travel_xor, release_of_not_isStill (not_isStill_const value)]
  exact Nat.le_trans (Nat.le_add_right _ _) (Nat.le_max_right _ _)

/-! ## Effort -/

/-- What passes may still do to a formula, taken with a negation in front of it if
one is pending. -/
def effort (pending : Bool) (f : Formula) : Nat := 2 * f.weight + f.travel pending

/-- The second formula is easier to finish than the first, strictly so if no negation
is pending. -/
structure Easier (f g : Formula) : Prop where
  weight_le : g.weight ≤ f.weight
  pending : g.effort true ≤ f.effort true
  idle : g.effort false < f.effort false

/-- Less weight makes up for two more nodes on the way of a pending negation. -/
theorem Easier.of_weight_lt {f g : Formula} (hweight : g.weight < f.weight)
    (hpending : g.travel true ≤ f.travel true + 2)
    (hidle : g.travel false ≤ f.travel false) : Easier f g := by
  refine ⟨Nat.le_of_lt hweight, ?_, ?_⟩
  · unfold effort; omega
  · unfold effort; omega

theorem Easier.of_travel {f g : Formula} (hweight : g.weight ≤ f.weight)
    (hpending : g.travel true ≤ f.travel true)
    (hidle : g.travel false < f.travel false) : Easier f g := by
  refine ⟨hweight, ?_, ?_⟩
  · unfold effort; omega
  · unfold effort; omega

/-- Operands of a node go, at least one. -/
theorem Easier.of_dropped {c : Connective} {fs gs : List Formula} {after : Formula}
    (hweight : weights gs + 3 ≤ weights fs) (hsub : ∀ f ∈ gs, f ∈ fs)
    (hafter : after = .nary c gs ∨ after = collapse c gs) : Easier (.nary c fs) after := by
  have htravel (pending : Bool) : after.travel pending ≤ travel pending (.nary c fs) := by
    have hmono : travel pending (.nary c gs) ≤ travel pending (.nary c fs) :=
      travel_nary_mono hsub
    rcases hafter with rfl | rfl
    · exact hmono
    · exact Nat.le_trans (travel_collapse_le pending c gs) hmono
  have hsmall : after.weight ≤ 3 + weights gs := by
    rcases hafter with rfl | rfl
    · rw [weight_nary]
      split <;> omega
    · refine collapse_cases c gs ?_ ?_ ?_
      · exact fun _ => Nat.le_add_right _ _
      · rintro f rfl
        simp only [weights_cons, weights_nil]
        omega
      · intro hlen
        rw [weight_nary, if_neg (by omega)]
        omega
  refine Easier.of_weight_lt ?_ (Nat.le_add_right_of_le (htravel true)) (htravel false)
  rw [weight_nary]
  split <;> omega

/-- One operand decides a node. -/
theorem Easier.of_decided {c : Connective} {fs : List Formula} {f : Formula} (hf : f ∈ fs)
    (value : Bool) : Easier (.nary c fs) (.const value) := by
  have hle := weight_le_weights hf
  have hthree := three_le_weight f
  refine Easier.of_weight_lt ?_ ?_ ?_
  · rw [weight_const, weight_nary]
    split <;> omega
  · rw [travel_const, travel_nary]
    omega
  · rw [travel_const, travel_nary]
    omega

/-- The travel through a factored node: two nodes are new on the way of a pending
negation. -/
theorem travel_factored_le (pending : Bool) (c d : Connective)
    {first second third left right : List Formula} {f restLeft restRight : Formula}
    (hf : f ∈ left) (hleft : restLeft.travel pending ≤ travel pending (.nary d left))
    (hright : restRight.travel pending ≤ travel pending (.nary d right)) :
    travel pending
        (collapse c (.nary d [f, .nary c [restLeft, restRight]] :: (first ++ second ++ third))) ≤
      travel pending (.nary c (first ++ .nary d left :: second ++ .nary d right :: third)) +
        2 * pending.toNat := by
  have hcommon : f.travel pending + pending.toNat ≤ travel pending (.nary d left) := by
    rw [travel_nary]
    exact Nat.add_le_add_right (travel_le_travels hf) _
  have hothers : travels pending (first ++ second ++ third) ≤
      travels pending (first ++ .nary d left :: second ++ .nary d right :: third) := by
    have hsub := ((List.sublist_cons_self (.nary d left) second).append_left first).append
      (List.sublist_cons_self (.nary d right) third)
    exact travels_mono fun g hg => hsub.subset hg
  have hnodeLeft : travel pending (.nary d left) ≤
      travels pending (first ++ .nary d left :: second ++ .nary d right :: third) :=
    travel_le_travels (by simp)
  have hnodeRight : travel pending (.nary d right) ≤
      travels pending (first ++ .nary d left :: second ++ .nary d right :: third) :=
    travel_le_travels (by simp)
  -- Each old node bounds its rest, and the new ones stand in between.
  refine Nat.le_trans (travel_collapse_le pending c _) ?_
  rw [travel_nary pending c (first ++ .nary d left :: second ++ .nary d right :: third)]
  generalize travels pending (first ++ .nary d left :: second ++ .nary d right :: third) = most
    at hothers hnodeLeft hnodeRight ⊢
  simp only [travel_nary pending c, travel_nary pending d, travels]
  omega

/-- The weight of a factored node: the common operand is saved once. -/
theorem weight_factored_lt (c d : Connective) {first second third left right : List Formula}
    {f g restLeft restRight : Formula}
    (hleft : restLeft.weight + f.weight ≤ weight (.nary d left))
    (hright : restRight.weight + g.weight ≤ weight (.nary d right)) :
    weight
        (collapse c (.nary d [f, .nary c [restLeft, restRight]] :: (first ++ second ++ third))) <
      weight (.nary c (first ++ .nary d left :: second ++ .nary d right :: third)) := by
  have hthree := three_le_weight g
  have hnew : weight (.nary d [f, .nary c [restLeft, restRight]]) =
      2 + f.weight + restLeft.weight + restRight.weight := by
    simp [weight_nary]
    omega
  have hold : weight (.nary c (first ++ .nary d left :: second ++ .nary d right :: third)) =
      1 + (weights first + weight (.nary d left) + weights second + weight (.nary d right) +
        weights third) := by
    rw [weight_nary, if_neg (by simp; omega)]
    simp only [weights_append, weights_cons]
    omega
  refine collapse_cases c _ ?_ ?_ ?_
  · intro hnil
    cases hnil
  · rintro h heq
    cases List.head_eq_of_cons_eq heq
    omega
  · intro hlen
    rw [weight_nary, if_neg (by omega), weights_cons]
    simp only [weights_append]
    omega

theorem easier_distribution (c : Connective) {first second third left right : List Formula}
    {f g : Formula} (hf : f ∈ left) (hg : g ∈ right) (hkey : g.key = f.key) :
    Easier (.nary c (first ++ .nary c.dual left :: second ++ .nary c.dual right :: third))
      (collapse c
        (.nary c.dual
          [f, .nary c
            [collapse c.dual (left.filter fun g => ¬ f.equivalent g),
              collapse c.dual (right.filter fun g => ¬ f.equivalent g)]] ::
          (first ++ second ++ third))) := by
  have hrest (pending : Bool) (fs : List Formula) :
      (collapse c.dual (fs.filter fun g => ¬ f.equivalent g)).travel pending ≤
        travel pending (.nary c.dual fs) :=
    Nat.le_trans (travel_collapse_le pending c.dual _)
      (travel_nary_mono fun _ h => (List.mem_filter.mp h).1)
  refine Easier.of_weight_lt ?_
    (travel_factored_le true c c.dual hf (hrest true left) (hrest true right))
    (travel_factored_le false c c.dual hf (hrest false left) (hrest false right))
  apply weight_factored_lt c c.dual
  · exact weight_collapse_filter_le c.dual hf (by simp [equivalent])
  · exact weight_collapse_filter_le c.dual hg (by simp [equivalent, hkey])

/-! ## Laws ease -/

theorem easier_not_not (f : Formula) : Easier (.not (.not f)) f := by
  have hle := travel_false_le f
  refine Easier.of_travel (Nat.le_refl _) ?_ ?_
  · simp only [travel_not, Bool.toNat_true]
    omega
  · simp only [travel_not, Bool.toNat_true]
    omega

theorem easier_deMorgan (c : Connective) (fs : List Formula) :
    Easier (.not (.nary c fs)) (.nary c.dual (fs.map .not)) := by
  have hweights : weights (fs.map .not) = weights fs := by
    induction fs with
    | nil => rfl
    | cons f fs ih => rw [List.map_cons, weights_cons, weights_cons, weight_not, ih]
  have htravels (pending : Bool) :
      travels pending (fs.map .not) ≤ travels true fs + pending.toNat := by
    rw [travels_le_iff]
    intro g hg
    obtain ⟨f, hf, rfl⟩ := List.mem_map.mp hg
    have hle : f.travel true ≤ travels true fs := travel_le_travels hf
    rw [travel_not]
    omega
  have htrue := htravels true
  have hfalse := htravels false
  refine Easier.of_travel ?_ ?_ ?_
  · exact Nat.le_of_eq (by rw [weight_not, weight_nary, weight_nary, List.length_map, hweights])
  · simp only [travel_not, travel_nary, Bool.toNat_true] at htrue ⊢
    omega
  · simp only [travel_not, travel_nary, Bool.toNat_true, Bool.toNat_false] at hfalse ⊢
    omega

theorem easier_not_const (value : Bool) : Easier (.not (.const value)) (.const !value) := by
  refine Easier.of_travel (Nat.le_refl _) ?_ ?_
  · simp [travel_not, travel_const]
  · simp [travel_not, travel_const]

/-- XOR goes, and one of its operands is left, perhaps negated. -/
theorem easier_xor {l r f g : Formula} (hweight : f.weight < weight (.xor l r))
    (htravel : f.travel true ≤ travel false (.xor l r)) (hg : g = f ∨ g = .not f) :
    Easier (.xor l r) g := by
  have hsame : travel true (.xor l r) = travel false (.xor l r) := by
    rw [travel_xor, travel_xor]
  have hle := travel_false_le f
  rcases hg with rfl | rfl
  · exact Easier.of_weight_lt hweight (by omega) (by omega)
  · refine Easier.of_weight_lt hweight ?_ ?_
    · rw [travel_not, Bool.toNat_true]
      omega
    · rw [travel_not, Bool.toNat_false]
      omega

end Formula

open Formula in
/-- Whatever law is applied, what it makes is easier to finish. -/
theorem Law.Relates.easier {law : Law} {f g : Formula} (h : law.Relates f g) : Easier f g := by
  cases h with
  | doubleNegation f => exact easier_not_not g
  | deMorgan c fs => exact easier_deMorgan c fs
  | constantComplement value => exact easier_not_const value
  | identity c fs hmem =>
      refine Easier.of_dropped (weights_add_three_le List.filter_sublist ?_)
        (fun f hf => (List.mem_filter.mp hf).1) (.inr rfl)
      rw [List.length_filter_lt_length_iff_exists]
      exact ⟨_, hmem, by simp⟩
  | annulment c fs hmem => exact Easier.of_decided hmem _
  | idempotence c fs gs after hthins hlen hafter =>
      exact Easier.of_dropped (weights_add_three_le hthins.sublist hlen)
        (fun f hf => hthins.sublist.subset hf) hafter
  | complement c fs f g hf hg hkey => exact Easier.of_decided hf _
  | absorption c before after gs f g hf hg hkey =>
      have hsub : (before ++ after).Sublist (before ++ .nary c.dual gs :: after) :=
        (List.sublist_cons_self _ after).append_left before
      exact Easier.of_dropped (weights_add_three_le hsub (by simp))
        (fun f hf => hsub.subset hf) (.inr rfl)
  | distribution c first second third left right f hf hshared =>
      obtain ⟨g, hg, hkey⟩ := hshared
      exact easier_distribution c hf hg hkey
  | xorIdentityRight =>
      exact easier_xor (by simp) (travel_le_xor_const false false g) (.inl rfl)
  | xorIdentityLeft =>
      exact easier_xor (by simp) (travel_le_const_xor false false g) (.inl rfl)
  | xorWithOneRight f =>
      exact easier_xor (by simp) (travel_le_xor_const false true f) (.inr rfl)
  | xorWithOneLeft f =>
      exact easier_xor (by simp) (travel_le_const_xor false true f) (.inr rfl)
  | xorCancellation l r hkey =>
      have hl := three_le_weight l
      have hr := three_le_weight r
      refine Easier.of_weight_lt ?_ ?_ ?_
      · rw [weight_const, weight_xor]
        omega
      · rw [travel_const, Bool.toNat_true]
        omega
      · rw [travel_const, Bool.toNat_false]
        omega

end BooleanSteps
