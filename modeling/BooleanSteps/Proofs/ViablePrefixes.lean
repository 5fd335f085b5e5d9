import BooleanSteps.Proofs.Feeding

/-!
# A failure names the first token that cannot follow

Whatever has been read can be brought to an end, with an operand where one must follow and the
parentheses that are open. Neither opens a level, so no limit stands against it. A token is
therefore refused only if no formula goes on with it, and what stands behind it is not looked at.
-/

namespace BooleanSteps

namespace Reading

variable {limit position : Nat} {r last : Reading} {before tokens : List Token} {found : Token}
  {fault : ParseFault} {e : ParseError}

/-! ## Where reading fails -/

/-- Reading in two parts: the second part starts where feeding the first one leads. -/
theorem read_append (hend : .endOfInput ∉ before) (h : r.feedAll limit before = .ok last)
    (position : Nat) (after : List Token) :
    r.read limit position (before ++ after) =
      last.read limit (position + before.length) after := by
  induction before generalizing r position with
  | nil =>
      cases h
      rfl
  | cons token before ih =>
      rw [List.mem_cons, not_or] at hend
      obtain ⟨htoken, hbefore⟩ := hend
      cases hfeed : r.feed limit token with
      | ok next =>
          rw [feedAll_cons hfeed] at h
          rw [List.cons_append, read_cons (Ne.symm htoken) hfeed, ih hbefore h, List.length_cons,
            Nat.add_right_comm, Nat.add_assoc]
      | error fault =>
          rw [feedAll_cons_error hfeed] at h
          cases h

/-- The token cannot follow what has been read. At the end a formula must be complete. -/
def Rejects (limit : Nat) (r : Reading) (found : Token) (fault : ParseFault) : Prop :=
  if found = .endOfInput then r.finish = .error fault else r.feed limit found = .error fault

theorem Rejects.read_eq (h : r.Rejects limit found fault) (position : Nat)
    (tokens : List Token) :
    r.read limit position (found :: tokens) = .error ⟨fault, found, position⟩ := by
  unfold Rejects at h
  split at h
  next heq =>
    subst heq
    rw [read, h]
    rfl
  next hend => exact read_cons_error hend h position tokens

theorem rejects_of_finish
    (h : r.finish.mapError (⟨·, .endOfInput, position⟩) = Except.error e) :
    e.found = .endOfInput ∧ e.position = position ∧ r.Rejects limit e.found e.fault := by
  cases hfinish : r.finish with
  | ok f =>
      rw [hfinish] at h
      cases h
  | error fault =>
      rw [hfinish] at h
      cases h
      exact ⟨rfl, rfl, (if_pos rfl).mpr hfinish⟩

/-- Reading fails behind tokens that can be fed, at the next one or where the tokens end. -/
theorem exists_of_read_eq_error (h : r.read limit position tokens = .error e) :
    ∃ before after last, tokens = before ++ after ∧ .endOfInput ∉ before ∧
      r.feedAll limit before = .ok last ∧ e.found = after.headD .endOfInput ∧
      e.position = position + before.length ∧ last.Rejects limit e.found e.fault := by
  induction tokens generalizing r position with
  | nil =>
      rw [read] at h
      exact ⟨[], [], r, rfl, List.not_mem_nil, rfl, rejects_of_finish h⟩
  | cons token tokens ih =>
      by_cases hend : token = .endOfInput
      · subst hend
        rw [read] at h
        exact ⟨[], _, r, rfl, List.not_mem_nil, rfl, rejects_of_finish h⟩
      · cases hfeed : r.feed limit token with
        | ok next =>
            rw [read_cons hend hfeed] at h
            obtain ⟨before, after, last, rfl, hbefore, hlast, hfound, hposition, hrejects⟩ := ih h
            refine ⟨token :: before, after, last, rfl, ?_, ?_, hfound, ?_, hrejects⟩
            · rw [List.mem_cons, not_or]
              exact ⟨Ne.symm hend, hbefore⟩
            · rw [feedAll_cons hfeed, hlast]
            · rw [hposition, List.length_cons]
              omega
        | error fault =>
            rw [read_cons_error hend hfeed] at h
            cases h
            exact ⟨[], _, r, rfl, List.not_mem_nil, rfl, rfl, rfl, (if_neg hend).mpr hfeed⟩

/-! ## What has been read can be completed -/

/-- Tokens behind which a formula is complete. -/
def completion : Reading → List Token
  | awaiting u => .const true :: List.replicate u.enclosing.length .closeParen
  | complete u => List.replicate u.enclosing.length .closeParen

theorem endOfInput_not_mem_completion (r : Reading) : .endOfInput ∉ r.completion := by
  cases r <;> simp [completion]

theorem exists_feedAll_closeParens (group : OpenGroup) (enclosing : List OpenGroup) :
    ∃ whole, feedAll limit (.complete ⟨group, enclosing⟩)
      (List.replicate enclosing.length .closeParen) = .ok (.complete ⟨whole, []⟩) := by
  induction enclosing generalizing group with
  | nil => exact ⟨group, rfl⟩
  | cons outer enclosing ih =>
      rw [List.length_cons, List.replicate_succ, feedAll_cons rfl]
      exact ih (outer.receive group.formula)

theorem exists_feedAll_completion (limit : Nat) (r : Reading) :
    ∃ whole, r.feedAll limit r.completion = .ok (.complete ⟨whole, []⟩) := by
  cases r with
  | awaiting u =>
      rw [completion, feedAll_cons rfl]
      exact exists_feedAll_closeParens _ u.enclosing
  | complete u => exact exists_feedAll_closeParens u.group u.enclosing

/-- Tokens that can be fed are the first ones of a formula. -/
theorem exists_read_append_eq_ok (hend : .endOfInput ∉ before)
    (h : r.feedAll limit before = .ok last) (position : Nat) :
    ∃ others f, r.read limit position (before ++ others) = .ok f := by
  obtain ⟨whole, hwhole⟩ := exists_feedAll_completion limit last
  refine ⟨last.completion ++ [], whole.formula, ?_⟩
  rw [read_append hend h, read_append (endOfInput_not_mem_completion last) hwhole]
  rfl

end Reading

/-! ## Lists of tokens -/

/-- A failure names the first token that cannot follow those before it, or the end: the tokens
before it are the first ones of a formula, and no list that goes on with it is read. -/
theorem Formula.ofTokens_refuses_earliest {tokens : List Token} {e : ParseError}
    (h : ofTokens tokens = .error e) :
    e.position ≤ tokens.length ∧ e.found = tokens.getD e.position .endOfInput ∧
      (∃ others f, ofTokens (tokens.take e.position ++ others) = .ok f) ∧
      (e.position < tokens.length →
        ∀ others, ofTokens (tokens.take (e.position + 1) ++ others) = .error e) := by
  obtain ⟨before, after, last, rfl, hend, hfeed, hfound, hposition, hrejects⟩ :=
    Reading.exists_of_read_eq_error h
  rw [Nat.zero_add] at hposition
  rw [hposition]
  refine ⟨by simp, ?_, ?_, ?_⟩
  · rw [hfound]
    cases after <;> simp
  · rw [List.take_left]
    exact Reading.exists_read_append_eq_ok hend hfeed 0
  · intro hlt others
    cases after with
    | nil => simp at hlt
    | cons found after =>
        rw [List.headD_cons] at hfound
        subst hfound
        have htake : (before ++ e.found :: after).take (before.length + 1) ++ others =
            before ++ e.found :: others := by
          simp [List.take_length_add_append]
        rw [htake, ofTokens, Reading.read_append hend hfeed, hrejects.read_eq, Nat.zero_add,
          ← hposition]

/-- A parenthesis cannot be closed behind `|`, whatever follows, but an operand can stand there. -/
theorem Formula.ofTokens_refuses_earliest_closed_group :
    ofTokens [.openParen, .var "A", .connective .or, .closeParen, .var "B"] =
        .error ⟨.expectedOperand, .closeParen, 3⟩ ∧
      (∃ others f, ofTokens ([.openParen, .var "A", .connective .or] ++ others) = .ok f) ∧
      ∀ others,
        ofTokens ([.openParen, .var "A", .connective .or, .closeParen] ++ others) =
          .error ⟨.expectedOperand, .closeParen, 3⟩ := by
  have h : ofTokens [.openParen, .var "A", .connective .or, .closeParen, .var "B"] =
      .error ⟨.expectedOperand, .closeParen, 3⟩ := rfl
  obtain ⟨-, -, hviable, hrefused⟩ := ofTokens_refuses_earliest h
  exact ⟨h, hviable, hrefused (by decide)⟩

end BooleanSteps
