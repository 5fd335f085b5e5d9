import BooleanSteps.Formula.Descent

/-!
# Calls that come to an end

A part of reading by descent ends on a trail if it has an outcome there. A sequence ends if its
first part does and what follows a formula does; a failure ends it at once. Where a call ends, it
ends alike if more calls are allowed.
-/

namespace BooleanSteps

namespace Trail

/-- The trail that goes on to a cursor. -/
def move (trail : Trail) (next : Cursor) : Trail := ⟨next, trail.cursor :: trail.earlier⟩

/-- The trail behind the next token. -/
def advance (trail : Trail) : Trail :=
  trail.move ⟨trail.cursor.position + 1, trail.cursor.depth⟩

/-- The trail behind the next token, which opens a level. -/
def enter (trail : Trail) : Trail :=
  (trail.move ⟨trail.cursor.position, trail.cursor.depth + 1⟩).advance

/-- The trail behind which levels are closed. -/
def close (trail : Trail) (count : Nat) : Trail :=
  trail.move ⟨trail.cursor.position, trail.cursor.depth - count⟩

variable (trail : Trail)

@[simp] theorem position_advance : trail.advance.cursor.position = trail.cursor.position + 1 := rfl

@[simp] theorem depth_advance : trail.advance.cursor.depth = trail.cursor.depth := rfl

@[simp] theorem depth_enter : trail.enter.cursor.depth = trail.cursor.depth + 1 := rfl

@[simp] theorem depth_close (count : Nat) :
    (trail.close count).cursor.depth = trail.cursor.depth - count := rfl

end Trail

namespace Descent

variable {α β : Type} {tokens : List Token} {start : Trail}
  {post : Except Halt α → Trail → Prop}

/-- On the trail, the descent ends with an outcome and a trail for which the condition holds. -/
def Ends (x : Descent α) (start : Trail) (post : Except Halt α → Trail → Prop) : Prop :=
  ∃ outcome trail, x.run.run start = some (outcome, trail) ∧ post outcome trail

theorem ends_pure_iff {a : α} : Ends (pure a) start post ↔ post (.ok a) start := by
  constructor
  · rintro ⟨outcome, trail, hrun, hpost⟩
    cases hrun
    exact hpost
  · exact fun hpost => ⟨_, _, rfl, hpost⟩

theorem ends_refuse_iff {fault : ParseFault} :
    Ends (refuse tokens fault) start post ↔
      post (.error (.refused
        ⟨fault, tokenAt tokens start.cursor.position, start.cursor.position⟩)) start := by
  constructor
  · rintro ⟨outcome, trail, hrun, hpost⟩
    cases hrun
    exact hpost
  · exact fun hpost => ⟨_, _, rfl, hpost⟩

theorem run_bind_of_ok {x : Descent β} {b : β} {trail : Trail} (next : β → Descent α)
    (h : x.run.run start = some (.ok b, trail)) :
    (x >>= next).run.run start = (next b).run.run trail := by
  change Option.bind (x.run.run start) _ = _
  rw [h]
  rfl

theorem run_bind_of_error {x : Descent β} {e : Halt} {trail : Trail} (next : β → Descent α)
    (h : x.run.run start = some (.error e, trail)) :
    (x >>= next).run.run start = some (.error e, trail) := by
  change Option.bind (x.run.run start) _ = _
  rw [h]
  rfl

theorem Ends.mono {x : Descent α} {post' : Except Halt α → Trail → Prop} (h : Ends x start post)
    (hpost : ∀ outcome trail, post outcome trail → post' outcome trail) : Ends x start post' := by
  obtain ⟨outcome, trail, hrun, htrail⟩ := h
  exact ⟨outcome, trail, hrun, hpost outcome trail htrail⟩

theorem Ends.bind {x : Descent β} {next : β → Descent α} {mid : Except Halt β → Trail → Prop}
    (h : Ends x start mid)
    (hok : ∀ b trail, mid (.ok b) trail → Ends (next b) trail post)
    (herror : ∀ e trail, mid (.error e) trail → post (.error e) trail) :
    Ends (x >>= next) start post := by
  obtain ⟨outcome, trail, hrun, hmid⟩ := h
  cases outcome with
  | ok b =>
      obtain ⟨outcome, trail', hrun', hpost⟩ := hok b trail hmid
      exact ⟨outcome, trail', by rw [run_bind_of_ok next hrun, hrun'], hpost⟩
  | error e => exact ⟨.error e, trail, run_bind_of_error next hrun, herror e trail hmid⟩

theorem Ends.bind_of_run {x : Descent β} {next : β → Descent α} {b : β} {trail : Trail}
    (hrun : x.run.run start = some (.ok b, trail)) (h : Ends (next b) trail post) :
    Ends (x >>= next) start post := by
  obtain ⟨outcome, trail', hrun', hpost⟩ := h
  exact ⟨outcome, trail', by rw [run_bind_of_ok next hrun, hrun'], hpost⟩

/-! ## The cursor -/

theorem run_peek (start : Trail) :
    (peek tokens).run.run start =
      some (.ok (tokenAt tokens start.cursor.position), start) := rfl

theorem run_advance (h : start.cursor.position < tokens.length) :
    (advance tokens).run.run start = some (.ok (), start.advance) := by
  change (if start.cursor.position < tokens.length then move _ else pure () :
    Descent Unit).run.run start = _
  rw [if_pos h]
  rfl

theorem run_eat_of_eq {token : Token} (htoken : tokenAt tokens start.cursor.position = token)
    (h : start.cursor.position < tokens.length) :
    (eat tokens token).run.run start = some (.ok true, start.advance) := by
  change (if tokenAt tokens start.cursor.position = token then (do advance tokens; return true)
    else return false : Descent Bool).run.run start = _
  rw [if_pos htoken, run_bind_of_ok _ (run_advance h)]
  rfl

theorem run_eat_of_ne {token : Token} (htoken : tokenAt tokens start.cursor.position ≠ token) :
    (eat tokens token).run.run start = some (.ok false, start) := by
  change (if tokenAt tokens start.cursor.position = token then (do advance tokens; return true)
    else return false : Descent Bool).run.run start = _
  rw [if_neg htoken]
  rfl

theorem run_closeLevels {count : Nat} (h : count ≤ start.cursor.depth) :
    (closeLevels count).run.run start = some (.ok (), start.close count) := by
  change (if count ≤ start.cursor.depth then move _ else throw .underflow :
    Descent Unit).run.run start = _
  rw [if_pos h]
  rfl

/-- A token that opens a level is passed if a level is left, and refused otherwise. -/
theorem ends_openLevel_advance {next : Descent α} (h : start.cursor.position < tokens.length)
    (hok : start.cursor.depth < maxDepth → Ends next start.enter post)
    (herror : maxDepth ≤ start.cursor.depth → post (.error (.refused
      ⟨.tooDeep, tokenAt tokens start.cursor.position, start.cursor.position⟩)) start) :
    Ends (do openLevel tokens; advance tokens; next) start post := by
  by_cases hle : maxDepth ≤ start.cursor.depth
  · have hrun : (openLevel tokens).run.run start = some (.error (.refused
        ⟨.tooDeep, tokenAt tokens start.cursor.position, start.cursor.position⟩), start) := by
      change (if maxDepth ≤ start.cursor.depth then refuse tokens .tooDeep else move _ :
        Descent Unit).run.run start = _
      rw [if_pos hle]
      rfl
    exact ⟨_, _, run_bind_of_error _ hrun, herror hle⟩
  · have hrun : (openLevel tokens).run.run start =
        some (.ok (), start.move ⟨start.cursor.position, start.cursor.depth + 1⟩) := by
      change (if maxDepth ≤ start.cursor.depth then refuse tokens .tooDeep else move _ :
        Descent Unit).run.run start = _
      rw [if_neg hle]
      rfl
    exact Ends.bind_of_run hrun (Ends.bind_of_run (run_advance h) (hok (Nat.lt_of_not_le hle)))

/-! ## More calls -/

/-- Where the first descent ends, the second one ends alike. -/
def Refines (x y : Descent α) : Prop :=
  ∀ start result, x.run.run start = some result → y.run.run start = some result

theorem Refines.refl (x : Descent α) : Refines x x := fun _ _ h => h

theorem Refines.trans {x y z : Descent α} (hxy : Refines x y) (hyz : Refines y z) : Refines x z :=
  fun start result h => hyz start result (hxy start result h)

theorem unfinished_refines (x : Descent α) : Refines unfinished x := by
  intro start result h
  cases h

theorem Refines.bind {x y : Descent β} {next next' : β → Descent α} (h : Refines x y)
    (hnext : ∀ b, Refines (next b) (next' b)) : Refines (x >>= next) (y >>= next') := by
  intro start result hrun
  cases hx : x.run.run start with
  | none =>
      change Option.bind (x.run.run start) _ = _ at hrun
      rw [hx] at hrun
      cases hrun
  | some first =>
      obtain ⟨outcome, trail⟩ := first
      have hy := h start _ hx
      cases outcome with
      | ok b =>
          rw [run_bind_of_ok next hx] at hrun
          rw [run_bind_of_ok next' hy]
          exact hnext b trail result hrun
      | error e =>
          rw [run_bind_of_error next hx] at hrun
          rw [run_bind_of_error next' hy, hrun]

section

variable {operand operand' : Descent Formula} (h : Refines operand operand')
include h

theorem joinMore_refines (c : Connective) (calls : Nat) (joined : Formula) :
    Refines (joinMore tokens c operand calls joined)
      (joinMore tokens c operand' (calls + 1) joined) := by
  induction calls generalizing joined with
  | zero => exact unfinished_refines _
  | succ calls ih =>
      refine (Refines.refl _).bind fun eaten => ?_
      cases eaten with
      | true => exact h.bind fun next => ih _
      | false => exact Refines.refl _

theorem chainMore_refines (calls : Nat) (chain : Formula) (links : Nat) :
    Refines (chainMore tokens operand calls chain links)
      (chainMore tokens operand' (calls + 1) chain links) := by
  induction calls generalizing chain links with
  | zero => exact unfinished_refines _
  | succ calls ih =>
      refine (Refines.refl _).bind fun next => ?_
      split
      next =>
        refine (Refines.refl _).bind fun _ => (Refines.refl _).bind fun _ => ?_
        exact h.bind fun next => ih _ _
      next => exact Refines.refl _

end

theorem call_refines_succ (calls : Nat) (p : Procedure) :
    Refines (call tokens calls p) (call tokens (calls + 1) p) := by
  induction calls generalizing p with
  | zero => exact unfinished_refines _
  | succ calls ih =>
      cases p with
      | expression => exact ih .disjunction
      | disjunction => exact (ih .exclusive).bind fun first => joinMore_refines (ih _) _ _ _
      | exclusive => exact (ih .conjunction).bind fun first => chainMore_refines (ih _) _ _ _
      | conjunction => exact (ih .unary).bind fun first => joinMore_refines (ih _) _ _ _
      | unary =>
          refine (Refines.refl _).bind fun next => ?_
          split
          next =>
            refine (Refines.refl _).bind fun _ => (Refines.refl _).bind fun _ => ?_
            exact (ih .unary).bind fun operand => Refines.refl _
          next => exact ih .primary
      | primary =>
          refine (Refines.refl _).bind fun next => ?_
          split
          next => exact Refines.refl _
          next => exact Refines.refl _
          next =>
            refine (Refines.refl _).bind fun _ => (Refines.refl _).bind fun _ => ?_
            exact (ih .expression).bind fun inner => Refines.refl _
          next => exact Refines.refl _

/-- A call that ends, ends alike if more calls are allowed. -/
theorem call_refines {calls more : Nat} (hle : calls ≤ more) (p : Procedure) :
    Refines (call tokens calls p) (call tokens more p) := by
  induction hle with
  | refl => exact Refines.refl _
  | step _ ih => exact ih.trans (call_refines_succ _ p)

end Descent

end BooleanSteps
