import BooleanSteps.Proofs.Feeding
import BooleanSteps.Proofs.Phrases

/-!
# What the grammar derives is read

The reader takes each phrase as one unit: from a point where a phrase of a category may
start at its level, it goes through the tokens of the phrase without a failure, and all
that has changed behind them is what the phrase adds to the group.
-/

namespace BooleanSteps

namespace Formula

theorem negated_not (n : Nat) (f : Formula) : negated n (.not f) = .not (negated n f) := by
  induction n with
  | zero => rfl
  | succ n ih => rw [negated, ih, negated]

@[simp] theorem xorChain_append (fs : List Formula) (f last : Formula) :
    xorChain (fs ++ [f]) last = .xor (xorChain fs f) last := by
  cases fs with
  | nil => rfl
  | cons head fs => simp [xorChain, List.foldl_append]

theorem foldl_xor_eq_xorChain {first last : Phrase} {others init : List Phrase}
    (h : first :: others = init ++ [last]) :
    others.foldl (fun f p => .xor f p.2) first.2 = xorChain (init.map Prod.snd) last.2 := by
  cases init with
  | nil =>
      cases h
      rfl
  | cons head init =>
      cases h
      simp [xorChain, List.foldl_map, List.foldl_append]

end Formula

/-! ## Phrases are read -/

namespace Reading

open OpenGroup

/-- At a level, the reader takes the tokens as a phrase of the category. -/
def Takes (limit : Nat) : Category → Nat → List Token → Formula → Prop
  | .primary, level, tokens, f | .unary, level, tokens, f =>
      ∀ u : Unfinished, u.depth = level →
        feedAll limit (.awaiting u) tokens = .ok (.complete (u.modify (·.receive f)))
  | .conjunction, level, tokens, f =>
      ∀ disjuncts chained enclosing, chained.length + depthAround enclosing = level →
        ∃ conjuncts,
          feedAll limit (.awaiting ⟨⟨disjuncts, chained, [], 0⟩, enclosing⟩) tokens =
            .ok (.complete ⟨⟨disjuncts, chained, conjuncts, 0⟩, enclosing⟩) ∧
          .join .and conjuncts = f
  | .exclusive, level, tokens, f =>
      ∀ disjuncts enclosing, depthAround enclosing = level →
        ∃ chained conjuncts,
          feedAll limit (.awaiting ⟨⟨disjuncts, [], [], 0⟩, enclosing⟩) tokens =
            .ok (.complete ⟨⟨disjuncts, chained, conjuncts, 0⟩, enclosing⟩) ∧
          .xorChain chained (.join .and conjuncts) = f
  | .disjunction, level, tokens, f =>
      ∀ enclosing, depthAround enclosing = level →
        ∃ group, feedAll limit (.awaiting ⟨.empty, enclosing⟩) tokens =
            .ok (.complete ⟨group, enclosing⟩) ∧
          group.formula = f

variable {limit level : Nat}

theorem descend_of_lt {u next : Unfinished} (h : u.depth < limit) :
    descend limit u next = .ok (.awaiting next) := if_pos h

theorem depthAround_enter (u : Unfinished) :
    depthAround (u.group :: u.enclosing) = u.depth + 1 := by
  rw [Unfinished.depth, depthAround]
  omega

theorem depth_enter (u : Unfinished) : u.enter.depth = u.depth + 1 := by
  rw [← depthAround_enter]
  exact Nat.zero_add _

theorem depth_negate (u : Unfinished) : (u.modify .negate).depth = u.depth + 1 := by
  simp only [Unfinished.depth, Unfinished.modify, negate, depth]
  omega

theorem takes_paren {tokens : List Token} {f : Formula} (hlevel : level < limit)
    (h : Takes limit .disjunction (level + 1) tokens f) :
    Takes limit .primary level (.openParen :: tokens ++ [.closeParen]) f := by
  intro u hu
  have hopen : (Reading.awaiting u).feed limit .openParen = .ok (.awaiting u.enter) :=
    descend_of_lt (hu ▸ hlevel)
  have hdepth : depthAround (u.group :: u.enclosing) = level + 1 := by
    rw [depthAround_enter, hu]
  obtain ⟨group, hfeed, rfl⟩ := h (u.group :: u.enclosing) hdepth
  rw [List.cons_append, feedAll_cons hopen, Unfinished.enter, feedAll_append hfeed]
  rfl

theorem takes_not {tokens : List Token} {f : Formula} (hlevel : level < limit)
    (h : Takes limit .unary (level + 1) tokens f) :
    Takes limit .unary level (.not :: tokens) (.not f) := by
  intro u hu
  have hnot : (Reading.awaiting u).feed limit .not = .ok (.awaiting (u.modify .negate)) :=
    descend_of_lt (hu ▸ hlevel)
  have hdepth : (u.modify .negate).depth = level + 1 := by rw [depth_negate, hu]
  rw [feedAll_cons hnot, h _ hdepth]
  simp only [Unfinished.modify, receive, negate, Formula.negated, Formula.negated_not]

/-! ## Operands with a separator behind each -/

/-- Operands of `&` join those that stand before them. -/
theorem feedAll_followed_and {phrases : List Phrase}
    (h : ∀ p ∈ phrases, Takes limit .unary level p.1 p.2)
    (disjuncts chained conjuncts : List Formula) {enclosing : List OpenGroup}
    (hlevel : chained.length + depthAround enclosing = level) :
    feedAll limit (.awaiting ⟨⟨disjuncts, chained, conjuncts, 0⟩, enclosing⟩)
        (followed (.connective .and) phrases) =
      .ok (.awaiting ⟨⟨disjuncts, chained, conjuncts ++ phrases.map Prod.snd, 0⟩, enclosing⟩) := by
  induction phrases generalizing conjuncts with
  | nil => simp
  | cons p phrases ih =>
      obtain ⟨hp, hrest⟩ := List.forall_mem_cons.mp h
      have hfirst := hp ⟨⟨disjuncts, chained, conjuncts, 0⟩, enclosing⟩ hlevel
      rw [followed_cons, feedAll_append hfirst, feedAll_cons rfl]
      have hothers := ih hrest (conjuncts ++ [p.2])
      rw [List.append_assoc] at hothers
      exact hothers

/-- Operands of `|` join those that stand before them. -/
theorem feedAll_followed_or {phrases : List Phrase}
    (h : ∀ p ∈ phrases, Takes limit .exclusive level p.1 p.2)
    (disjuncts : List Formula) {enclosing : List OpenGroup}
    (hlevel : depthAround enclosing = level) :
    feedAll limit (.awaiting ⟨⟨disjuncts, [], [], 0⟩, enclosing⟩)
        (followed (.connective .or) phrases) =
      .ok (.awaiting ⟨⟨disjuncts ++ phrases.map Prod.snd, [], [], 0⟩, enclosing⟩) := by
  induction phrases generalizing disjuncts with
  | nil => simp
  | cons p phrases ih =>
      obtain ⟨hp, hrest⟩ := List.forall_mem_cons.mp h
      obtain ⟨chained, conjuncts, hfirst, heq⟩ := hp disjuncts enclosing hlevel
      have hor : (Reading.complete ⟨⟨disjuncts, chained, conjuncts, 0⟩, enclosing⟩).feed limit
          (.connective .or) = .ok (.awaiting ⟨⟨disjuncts ++ [p.2], [], [], 0⟩, enclosing⟩) := by
        rw [← heq]
        rfl
      rw [followed_cons, feedAll_append hfirst, feedAll_cons hor, ih hrest, List.append_assoc]
      rfl

/-- Behind an operand of a chain, `^` opens a level if one is left. -/
theorem feedAll_append_xor {p : Phrase} (h : Takes limit .conjunction level p.1 p.2)
    (disjuncts chained : List Formula) {enclosing : List OpenGroup}
    (hlevel : chained.length + depthAround enclosing = level) :
    feedAll limit (.awaiting ⟨⟨disjuncts, chained, [], 0⟩, enclosing⟩) (p.1 ++ [.xor]) =
      if level < limit then .ok (.awaiting ⟨⟨disjuncts, chained ++ [p.2], [], 0⟩, enclosing⟩)
      else .error .tooDeep := by
  obtain ⟨conjuncts, hfirst, heq⟩ := h disjuncts chained enclosing hlevel
  rw [feedAll_append hfirst, feedAll_singleton, ← hlevel, ← heq]
  rfl

/-- Each `^` turns the conjunction before it into one more operand of the chain, and the
level of what follows is one higher. -/
theorem feedAll_followed_xor {phrases : List Phrase}
    (hlimit : ∀ i, i < phrases.length → level + i < limit)
    (h : ∀ i (hi : i < phrases.length),
      Takes limit .conjunction (level + i) phrases[i].1 phrases[i].2)
    (disjuncts chained : List Formula) {enclosing : List OpenGroup}
    (hlevel : chained.length + depthAround enclosing = level) :
    feedAll limit (.awaiting ⟨⟨disjuncts, chained, [], 0⟩, enclosing⟩) (followed .xor phrases) =
      .ok (.awaiting ⟨⟨disjuncts, chained ++ phrases.map Prod.snd, [], 0⟩, enclosing⟩) := by
  -- With every `^` the start of the chain moves on by one operand and one level.
  induction phrases generalizing level chained with
  | nil => simp
  | cons p phrases ih =>
      have hfirst : Takes limit .conjunction level p.1 p.2 := h 0 (Nat.zero_lt_succ _)
      have hlt : level < limit := hlimit 0 (Nat.zero_lt_succ _)
      have hxor := feedAll_append_xor hfirst disjuncts chained hlevel
      rw [if_pos hlt] at hxor
      have hlevel' : (chained ++ [p.2]).length + depthAround enclosing = level + 1 := by
        rw [List.length_append, List.length_singleton]
        omega
      have hshift (i : Nat) : level + 1 + i = level + (i + 1) := by omega
      have hothers := ih (fun i hi => hshift i ▸ hlimit (i + 1) (Nat.succ_lt_succ hi))
        (fun i hi => hshift i ▸ h (i + 1) (Nat.succ_lt_succ hi)) (chained ++ [p.2]) hlevel'
      rw [List.append_assoc] at hothers
      rw [followed_cons, List.append_cons, feedAll_append hxor]
      exact hothers

/-! ## The last operand -/

theorem takes_conjunction {phrases : List Phrase} (hne : phrases ≠ [])
    (h : ∀ p ∈ phrases, Takes limit .unary level p.1 p.2) :
    Takes limit .conjunction level (separated (.connective .and) phrases)
      (.join .and (phrases.map Prod.snd)) := by
  intro disjuncts chained enclosing hlevel
  obtain ⟨others, last, rfl⟩ := exists_eq_concat_of_ne_nil hne
  obtain ⟨hothers, hlast⟩ := List.forall_mem_append.mp h
  have hfeed := hlast last List.mem_cons_self
    ⟨⟨disjuncts, chained, others.map Prod.snd, 0⟩, enclosing⟩ hlevel
  refine ⟨(others ++ [last]).map Prod.snd, ?_, rfl⟩
  rw [separated_concat, feedAll_append (feedAll_followed_and hothers disjuncts chained [] hlevel),
    List.map_append]
  exact hfeed

theorem takes_exclusive {first : Phrase} {others : List Phrase}
    (hlimit : ∀ i, i < others.length → level + i < limit)
    (h : ∀ i (hi : i < (first :: others).length),
      Takes limit .conjunction (level + i) (first :: others)[i].1 (first :: others)[i].2) :
    Takes limit .exclusive level (separated .xor (first :: others))
      (others.foldl (fun f p => .xor f p.2) first.2) := by
  intro disjuncts enclosing hlevel
  obtain ⟨init, last, heq⟩ := exists_eq_concat_of_ne_nil (List.cons_ne_nil first others)
  have hlength := length_eq_of_cons_eq_concat heq
  rw [Formula.foldl_xor_eq_xorChain heq]
  simp only [heq] at h ⊢
  obtain ⟨hinit, hlast⟩ := forall_getElem_concat
    (p := fun i p => Takes limit .conjunction (level + i) p.1 p.2) h
  have hfeed := feedAll_followed_xor (fun i hi => hlimit i (hlength ▸ hi)) hinit disjuncts []
    (by simpa using hlevel)
  obtain ⟨conjuncts, hlast, hjoin⟩ := hlast disjuncts (init.map Prod.snd) enclosing
    (by simp; omega)
  refine ⟨init.map Prod.snd, conjuncts, ?_, by rw [hjoin]⟩
  rw [separated_concat]
  exact (feedAll_append hfeed _).trans hlast

theorem takes_disjunction {phrases : List Phrase} (hne : phrases ≠ [])
    (h : ∀ p ∈ phrases, Takes limit .exclusive level p.1 p.2) :
    Takes limit .disjunction level (separated (.connective .or) phrases)
      (.join .or (phrases.map Prod.snd)) := by
  intro enclosing hlevel
  obtain ⟨others, last, rfl⟩ := exists_eq_concat_of_ne_nil hne
  obtain ⟨hothers, hlast⟩ := List.forall_mem_append.mp h
  obtain ⟨chained, conjuncts, hfeed, heq⟩ :=
    hlast last List.mem_cons_self (others.map Prod.snd) enclosing hlevel
  refine ⟨⟨others.map Prod.snd, chained, conjuncts, 0⟩, ?_, ?_⟩
  · rw [separated_concat]
    exact (feedAll_append (feedAll_followed_or hothers [] hlevel) _).trans hfeed
  · rw [formula, chain, conjunction, heq, List.map_append]
    rfl

end Reading

/-- The reader takes every phrase. -/
theorem Derives.takes {limit : Nat} {c : Category} {level : Nat} {tokens : List Token}
    {f : Formula} (h : Derives limit c level tokens f) : Reading.Takes limit c level tokens f := by
  induction h with
  | var => exact fun _ _ => rfl
  | const => exact fun _ _ => rfl
  | paren hlevel _ ih => exact Reading.takes_paren hlevel ih
  | primary _ ih => exact ih
  | not hlevel _ ih => exact Reading.takes_not hlevel ih
  | conjunction _ hne _ ih => exact Reading.takes_conjunction hne ih
  | exclusive _ _ hlimit _ ih => exact Reading.takes_exclusive hlimit ih
  | disjunction _ hne _ ih => exact Reading.takes_disjunction hne ih

/-- A formula that the tokens are written for is read from them. -/
theorem Derives.exists_finish {limit : Nat} {tokens : List Token} {f : Formula}
    (h : Derives limit .disjunction 0 tokens f) :
    ∃ last, Reading.feedAll limit (.awaiting .start) tokens = .ok last ∧ last.finish = .ok f := by
  obtain ⟨group, hfeed, rfl⟩ := h.takes [] rfl
  exact ⟨_, hfeed, rfl⟩

end BooleanSteps
