import BooleanSteps.Proofs.Calls
import BooleanSteps.Proofs.Resuming

/-!
# Levels that are opened are closed again

A call of a procedure comes to an end wherever it starts. While it runs, the cursor stays within the
limit on levels and within the tokens before the next end, and when it ends with a formula, it has
read a token at least and all levels that it opened are closed.

Two invariants carry this through the calls. One is on the cursor alone. The other says which
stretch of the reading with unfinished groups the call stands for: the groups keep as many levels
open as are counted. So both ways to read end with the same formula or the same failure.
-/

namespace BooleanSteps

/-! ## The cursor -/

/-- The cursor has kept to the limit on levels, and has not gone behind the place. -/
def Trail.Within (stop : Nat) (trail : Trail) : Prop :=
  ∀ c ∈ trail.cursor :: trail.earlier, c.depth ≤ maxDepth ∧ c.position ≤ stop

/-- At the place stands an end, in the list or right behind it. -/
structure IsStop (tokens : List Token) (stop : Nat) : Prop where
  le_length : stop ≤ tokens.length
  tokenAt_eq : tokenAt tokens stop = .endOfInput

variable {tokens : List Token} {stop : Nat}

section

variable {trail : Trail} (h : trail.Within stop)
include h

theorem Trail.Within.depth_le : trail.cursor.depth ≤ maxDepth := (h _ List.mem_cons_self).1

theorem Trail.Within.position_le : trail.cursor.position ≤ stop := (h _ List.mem_cons_self).2

theorem Trail.Within.move {next : Cursor} (hdepth : next.depth ≤ maxDepth)
    (hposition : next.position ≤ stop) : (trail.move next).Within stop :=
  List.forall_mem_cons.mpr ⟨⟨hdepth, hposition⟩, h⟩

theorem Trail.Within.advance (hlt : trail.cursor.position < stop) : trail.advance.Within stop :=
  h.move h.depth_le hlt

theorem Trail.Within.enter (hdepth : trail.cursor.depth < maxDepth)
    (hlt : trail.cursor.position < stop) : trail.enter.Within stop :=
  Trail.Within.advance (h.move hdepth h.position_le) hlt

theorem Trail.Within.close (count : Nat) : (trail.close count).Within stop :=
  h.move (Nat.le_trans (Nat.sub_le _ _) h.depth_le) h.position_le

/-- Before the stop the cursor can go on. -/
theorem Trail.Within.position_lt (hstop : IsStop tokens stop)
    (hend : tokenAt tokens trail.cursor.position ≠ .endOfInput) : trail.cursor.position < stop := by
  refine Nat.lt_of_le_of_ne h.position_le fun heq => hend ?_
  rw [heq, hstop.tokenAt_eq]

end

namespace Descent

open Reading

/-! ## What a call keeps to -/

section

variable (tokens : List Token) (stop : Nat)

/-- Reading on from the place, from one of the points given for the groups before a phrase, takes in
the formula as the phrase. The cursor has moved on, and so many levels are open. -/
structure Reaches (p : Procedure) (least depth position : Nat)
    (points : Unfinished → Reading → Prop) (f : Formula) (trail : Trail) : Prop where
  within : trail.Within stop
  least_le : least ≤ trail.cursor.position
  depth_eq : trail.cursor.depth = depth
  stops : tokenAt tokens trail.cursor.position ∉ continuations p
  reads : ∀ u r, points u r → ∃ u', Leaves p u f u' ∧
    resume tokens position r = resume tokens trail.cursor.position (.complete u')

/-- The phrase is taken in, or the reader with unfinished groups ends with the same failure. -/
def Meets (p : Procedure) (least depth position : Nat) (points : Unfinished → Reading → Prop) :
    Except Halt Formula → Trail → Prop
  | .ok f, trail => Reaches tokens stop p least depth position points f trail
  | .error (.refused e), trail =>
      trail.Within stop ∧ ∀ u r, points u r → resume tokens position r = .error e
  | .error .underflow, _ => False

/-- The points at which a procedure starts. -/
def Enters (p : Procedure) (start : Trail) (u : Unfinished) (r : Reading) : Prop :=
  Starts p u.group (tokenAt tokens start.cursor.position) ∧ u.depth = start.cursor.depth ∧
    r = .awaiting u

/-- What a call of a procedure keeps to. -/
def Keeps (p : Procedure) (start : Trail) : Except Halt Formula → Trail → Prop :=
  Meets tokens stop p (start.cursor.position + 1) start.cursor.depth start.cursor.position
    (Enters tokens p start)

/-- From the first points reading leads to where the procedure starts, and from there with its
phrase to the second points. -/
def Leads (q : Procedure) (position : Nat) (start : Trail) (points : Unfinished → Reading → Prop)
    (behind : Formula → Trail → Unfinished → Reading → Prop) : Prop :=
  ∀ u r, points u r → ∃ v, Enters tokens q start v (.awaiting v) ∧
    resume tokens position r = resume tokens start.cursor.position (.awaiting v) ∧
    ∀ f (trail : Trail) u', trail.cursor.depth = start.cursor.depth → Leaves q v f u' →
      behind f trail u (.complete u')

end

variable {p q : Procedure} {least least' depth depth' position position' calls : Nat}
  {points points' : Unfinished → Reading → Prop}
  {behind : Formula → Trail → Unfinished → Reading → Prop}
  {next : Formula → Descent Formula} {outcome : Except Halt Formula} {start trail : Trail}

theorem Meets.within
    (h : Meets tokens stop p least depth position points outcome trail) : trail.Within stop := by
  match outcome, h with
  | .ok _, h => exact Reaches.within h
  | .error (.refused _), h => exact h.1

/-- A failure of a part is a failure of the whole if reading leads to the part. -/
theorem Meets.of_error {e : Halt}
    (h : Meets tokens stop q least' depth' position' points' (.error e) trail)
    (hleads : ∀ u r, points u r →
      ∃ v r', points' v r' ∧ resume tokens position r = resume tokens position' r') :
    Meets tokens stop p least depth position points (.error e) trail := by
  cases e with
  | underflow => exact h
  | refused e =>
      refine ⟨h.1, fun u r hr => ?_⟩
      obtain ⟨v, r', hr', heq⟩ := hleads u r hr
      rw [heq, h.2 v r' hr']

/-- The last part of a procedure ends as the whole does. -/
theorem Meets.of_last (h : Meets tokens stop p least' depth position' points' outcome trail)
    (hle : least ≤ least')
    (hleads : ∀ u r, points u r →
      ∃ r', points' u r' ∧ resume tokens position r = resume tokens position' r') :
    Meets tokens stop p least depth position points outcome trail := by
  cases outcome with
  | error e =>
      refine h.of_error fun u r hr => ?_
      obtain ⟨r', hr', heq⟩ := hleads u r hr
      exact ⟨u, r', hr', heq⟩
  | ok f =>
      refine ⟨h.within, Nat.le_trans hle h.least_le, h.depth_eq, h.stops, fun u r hr => ?_⟩
      obtain ⟨r', hr', heq⟩ := hleads u r hr
      obtain ⟨u', hleaves, heq'⟩ := h.reads u r' hr'
      exact ⟨u', hleaves, heq.trans heq'⟩

/-- A procedure that only calls another one keeps to what the other one does. -/
theorem Keeps.of_procedure (h : Keeps tokens stop q start outcome trail)
    (hcontinuations : continuations q = continuations p)
    (hstarts : ∀ {u r}, Enters tokens p start u r → Enters tokens q start u r)
    (hleaves : ∀ {u f u'}, Leaves q u f u' → Leaves p u f u') :
    Keeps tokens stop p start outcome trail := by
  cases outcome with
  | error e => exact Meets.of_error h fun u r hr => ⟨u, r, hstarts hr, rfl⟩
  | ok f =>
      refine ⟨h.within, h.least_le, h.depth_eq, hcontinuations ▸ h.stops, fun u r hr => ?_⟩
      obtain ⟨u', hread, heq⟩ := h.reads u r (hstarts hr)
      exact ⟨u', hleaves hread, heq⟩

/-- A part that is called is followed by the rest. -/
theorem Ends.followed (h : Ends (call tokens calls q) start (Keeps tokens stop q start))
    (hle : least ≤ start.cursor.position + 1)
    (hleads : Leads tokens q position start points behind)
    (hnext : ∀ f (trail : Trail), trail.Within stop →
      start.cursor.position < trail.cursor.position →
      trail.cursor.depth = start.cursor.depth →
      tokenAt tokens trail.cursor.position ∉ continuations q →
      Ends (next f) trail (Meets tokens stop p trail.cursor.position depth trail.cursor.position
        (behind f trail))) :
    Ends (call tokens calls q >>= next) start
      (Meets tokens stop p least depth position points) := by
  refine h.bind (fun f trail hf => ?_) fun e trail he => he.of_error fun u r hr => ?_
  · refine (hnext f trail hf.within hf.least_le hf.depth_eq hf.stops).mono
      fun outcome last hlast => hlast.of_last (Nat.le_trans hle hf.least_le) fun u r hr => ?_
    obtain ⟨v, henters, heq, hbehind⟩ := hleads u r hr
    obtain ⟨u', hleaves, heq'⟩ := hf.reads v _ henters
    exact ⟨_, hbehind f trail u' hf.depth_eq hleaves, heq.trans heq'⟩
  · obtain ⟨v, henters, heq, -⟩ := hleads u r hr
    exact ⟨v, _, henters, heq⟩

/-! ## How many calls are enough -/

/-- How far the procedure stands from the one that reads a token. -/
def rank : Procedure → Nat
  | .primary => 0
  | .unary => 1
  | .conjunction => 2
  | .exclusive => 3
  | .disjunction => 4
  | .expression => 5

/-- Calls that are enough for a procedure before so many tokens: each token may be read through all
procedures. -/
def enough (p : Procedure) (remaining : Nat) : Nat := 6 * remaining + rank p + 1

/-- Every call for which so many calls are enough ends as it should. -/
def Sound (tokens : List Token) (stop calls : Nat) : Prop :=
  ∀ (p : Procedure) (start : Trail), start.Within stop →
    enough p (stop - start.cursor.position) ≤ calls →
    Ends (call tokens calls p) start (Keeps tokens stop p start)

theorem lt_of_enough {remaining : Nat} (h : enough p remaining ≤ calls) : remaining < calls := by
  rw [enough] at h
  omega

/-- Further on, fewer calls are enough. -/
theorem enough_of_le {here there : Nat} (hle : here ≤ there)
    (h : enough p (stop - here) ≤ calls) : enough p (stop - there) ≤ calls := by
  rw [enough] at h ⊢
  omega

/-- Inside a call, those that are left are enough for a procedure that stands nearer to the
token. -/
theorem enough_of_rank_lt {remaining : Nat} (hrank : rank q < rank p)
    (h : enough p remaining ≤ calls + 1) : enough q remaining ≤ calls := by
  rw [enough] at h ⊢
  omega

/-- Inside a call, those that are left are enough for every procedure behind the next token. -/
theorem enough_of_lt {here : Nat} (hlt : here < stop) (h : enough p (stop - here) ≤ calls + 1)
    (q : Procedure) : enough q (stop - (here + 1)) ≤ calls := by
  have hrank : rank q ≤ 5 := by cases q <;> decide
  rw [enough] at h ⊢
  omega

/-! ## Parts that have been read -/

/-- The points behind a first part of a phrase that has been taken in, with some levels open. -/
def Behind (p : Procedure) (levels : Nat) (taken : Unfinished → Unfinished → Prop) (start : Trail)
    (u : Unfinished) (r : Reading) : Prop :=
  (∃ token, Starts p u.group token) ∧ u.depth + levels = start.cursor.depth ∧
    ∃ u', taken u u' ∧ r = .complete u'

/-- The points behind operands that are joined to a formula. -/
def BehindJoined (c : Connective) (joined : Formula) : Trail → Unfinished → Reading → Prop :=
  Behind (.joining c) 0 fun u u' => Leaves (.joining c) u joined u'

/-- The points behind a chain that has some links. -/
def BehindChain (links : Nat) (chain : Formula) : Trail → Unfinished → Reading → Prop :=
  Behind .exclusive links fun u u' => Links links u chain u'

/-- The points behind a phrase that stands behind a token that opens a level. -/
def BehindOpening (p q : Procedure) (opened : Unfinished → Unfinished) (f : Formula) :
    Trail → Unfinished → Reading → Prop :=
  Behind p 1 fun u u' => Leaves q (opened u) f u'

/-- The first part of a phrase starts where the phrase does. -/
theorem leads_first {taken : Formula → Unfinished → Unfinished → Prop}
    (hstarts : ∀ {group token}, Starts p group token → Starts q group token)
    (htaken : ∀ {u f u' token}, Starts p u.group token → Leaves q u f u' → taken f u u') :
    Leads tokens q start.cursor.position start (Enters tokens p start)
      fun f => Behind p 0 (taken f) := by
  rintro u r ⟨hphrase, hdepth, rfl⟩
  refine ⟨u, ⟨hstarts hphrase, hdepth, rfl⟩, rfl, fun f trail u' htrail hleaves => ?_⟩
  exact ⟨⟨_, hphrase⟩, hdepth.trans htrail.symm, u', htaken hphrase hleaves, rfl⟩

/-- Behind the connective the reader awaits an operand, which is joined to those before it. -/
theorem leads_joined {c : Connective} {joined : Formula}
    (htoken : tokenAt tokens start.cursor.position = .connective c) :
    Leads tokens (.operand c) start.cursor.position start.advance (BehindJoined c joined start)
      fun f => BehindJoined c (.join c [joined, f]) := by
  rintro u r ⟨⟨token, hphrase⟩, hdepth, u', hleaves, rfl⟩
  obtain ⟨v, hfeed, hstarts, hv, hjoin⟩ := exists_feed_connective hphrase hleaves
  refine ⟨v, ⟨hstarts _, hv.trans hdepth, rfl⟩, ?_, fun f trail u'' htrail hf => ?_⟩
  · exact resume_of_feed (by simp [htoken]) (by rw [htoken, hfeed])
  · exact ⟨⟨token, hphrase⟩, hdepth.trans htrail.symm, u'', hjoin f u'' hf, rfl⟩

/-- Behind `^` the reader awaits an operand, which is one more link, if a level is left. -/
theorem leads_chain {chain : Formula} {links : Nat}
    (htoken : tokenAt tokens start.cursor.position = .xor)
    (hlevel : start.cursor.depth < maxDepth) :
    Leads tokens .conjunction start.cursor.position start.enter (BehindChain links chain start)
      fun f => BehindChain (links + 1) (.xor chain f) := by
  rintro u r ⟨⟨token, hphrase⟩, hdepth, u', hlinks, rfl⟩
  have hu' : u'.depth = start.cursor.depth := by rw [depth_of_links hphrase hlinks, hdepth]
  refine ⟨u'.modify .extendChain, ⟨starts_extendChain hphrase hlinks _, ?_, rfl⟩, ?_,
    fun f trail u'' htrail hf => ⟨⟨token, hphrase⟩, ?_, u'', links_succ hlinks hf, rfl⟩⟩
  · rw [depth_extendChain, hu', Trail.depth_enter]
  · refine resume_of_feed (by simp [htoken]) ?_
    rw [htoken]
    exact descend_of_lt (hu' ▸ hlevel)
  · rw [htrail, Trail.depth_enter, ← hdepth, Nat.add_assoc]

/-- Where no level is left, `^` is refused behind a chain. -/
theorem rejects_chain {chain : Formula} {links : Nat} {u : Unfinished} {r : Reading}
    (hfull : maxDepth ≤ start.cursor.depth) (h : BehindChain links chain start u r) :
    r.Rejects maxDepth .xor .tooDeep := by
  obtain ⟨⟨token, hphrase⟩, hdepth, u', hlinks, rfl⟩ := h
  have hu' : u'.depth = start.cursor.depth := by rw [depth_of_links hphrase hlinks, hdepth]
  exact descend_of_le (hu' ▸ hfull)

section

variable {opened : Unfinished → Unfinished}
  (h : Opening (tokenAt tokens start.cursor.position) q opened)
include h

/-- Behind a token that opens a level a phrase may start, if a level is left. -/
theorem leads_opening (hlevel : start.cursor.depth < maxDepth) :
    Leads tokens q start.cursor.position start.enter (Enters tokens p start)
      (BehindOpening p q opened) := by
  rintro u r ⟨hphrase, hdepth, rfl⟩
  refine ⟨opened u, ⟨h.starts u _, ?_, rfl⟩, resume_of_feed h.ne_endOfInput ?_,
    fun f trail u' htrail hleaves => ⟨⟨_, hphrase⟩, ?_, u', hleaves, rfl⟩⟩
  · rw [h.depth_eq, hdepth, Trail.depth_enter]
  · rw [h.feed_eq]
    exact descend_of_lt (hdepth ▸ hlevel)
  · rw [htrail, Trail.depth_enter, hdepth]

theorem rejects_opening {u : Unfinished} {r : Reading} (hfull : maxDepth ≤ start.cursor.depth)
    (henters : Enters tokens p start u r) :
    r.Rejects maxDepth (tokenAt tokens start.cursor.position) .tooDeep := by
  obtain ⟨-, hdepth, rfl⟩ := henters
  rw [Rejects, if_neg h.ne_endOfInput, h.feed_eq]
  exact descend_of_le (hdepth ▸ hfull)

end

/-! ## Loops -/

theorem continuations_joining (c : Connective) :
    continuations (.joining c) = .connective c :: continuations (.operand c) := by
  cases c <;> rfl

section

variable (hstop : IsStop tokens stop) {loops : Nat} (h : Sound tokens stop calls)
include hstop h

/-- A token that opens a level is followed by a phrase, behind which the level is open. -/
theorem ends_level (hend : tokenAt tokens start.cursor.position ≠ .endOfInput)
    (hwithin : start.Within stop)
    (henough : start.cursor.position < stop → enough q (stop - (start.cursor.position + 1)) ≤ calls)
    (hle : least ≤ start.cursor.position + 1)
    (hleads : start.cursor.depth < maxDepth →
      Leads tokens q start.cursor.position start.enter points behind)
    (hrejects : maxDepth ≤ start.cursor.depth → ∀ u r, points u r →
      r.Rejects maxDepth (tokenAt tokens start.cursor.position) .tooDeep)
    (hnext : ∀ f (trail : Trail), trail.Within stop →
      start.cursor.position < trail.cursor.position →
      trail.cursor.depth = start.cursor.depth + 1 →
      tokenAt tokens trail.cursor.position ∉ continuations q →
      Ends (next f) trail (Meets tokens stop p trail.cursor.position depth trail.cursor.position
        (behind f trail))) :
    Ends (do openLevel tokens; advance tokens; call tokens calls q >>= next) start
      (Meets tokens stop p least depth start.cursor.position points) := by
  have hlt := hwithin.position_lt hstop hend
  refine ends_openLevel_advance (Nat.lt_of_lt_of_le hlt hstop.le_length) (fun hlevel => ?_)
    fun hfull => ⟨hwithin, fun u r hr => resume_of_rejects (hrejects hfull u r hr)⟩
  exact (h q _ (hwithin.enter hlevel hlt) (henough hlt)).followed (Nat.le_succ_of_le hle)
    (hleads hlevel) fun f trail hwithin' hlt' => hnext f trail hwithin' (Nat.lt_of_succ_lt hlt')

/-- Every operand behind a connective is joined, until the next token is another one. -/
theorem joinMore_meets {c : Connective} (joined : Formula) (hwithin : start.Within stop)
    (hloops : stop - start.cursor.position < loops)
    (henough : enough (.operand c) (stop - start.cursor.position) ≤ calls)
    (hstops : tokenAt tokens start.cursor.position ∉ continuations (.operand c)) :
    Ends (joinMore tokens c (call tokens calls (.operand c)) loops joined) start
      (Meets tokens stop (.joining c) start.cursor.position start.cursor.depth
        start.cursor.position (BehindJoined c joined start)) := by
  -- Each operand brings the cursor nearer to the stop, so the loops that are left are enough.
  induction loops generalizing joined start with
  | zero => exact absurd hloops (Nat.not_lt_zero _)
  | succ loops ih =>
      by_cases htoken : tokenAt tokens start.cursor.position = .connective c
      · have hlt := hwithin.position_lt hstop (by simp [htoken])
        have hless := enough_of_le (Nat.le_succ _) henough
        refine Ends.bind_of_run (run_eat_of_eq htoken (Nat.lt_of_lt_of_le hlt hstop.le_length))
          ((h _ _ (hwithin.advance hlt) hless).followed ?_ (leads_joined htoken)
            fun f trail hwithin' hlt' hdepth hstops' => ?_)
        · rw [Trail.position_advance]
          omega
        · rw [Trail.position_advance] at hlt'
          rw [← Trail.depth_advance start, ← hdepth]
          exact ih _ hwithin' (by omega) (enough_of_le (by omega) henough) hstops'
      · refine Ends.bind_of_run (run_eat_of_ne htoken) (ends_pure_iff.mpr ?_)
        refine ⟨hwithin, Nat.le_refl _, rfl, ?_, ?_⟩
        · rw [continuations_joining, List.mem_cons, not_or]
          exact ⟨htoken, hstops⟩
        · rintro u r ⟨-, -, u', hleaves, rfl⟩
          exact ⟨u', hleaves, rfl⟩

/-- Every operand behind `^` is one more link, until the next token is not `^`. Then the levels of
all links are closed. -/
theorem chainMore_meets (chain : Formula) {links : Nat} (hwithin : start.Within stop)
    (hdepth : start.cursor.depth = depth + links)
    (hloops : stop - start.cursor.position < loops)
    (henough : enough .conjunction (stop - start.cursor.position) ≤ calls)
    (hstops : tokenAt tokens start.cursor.position ∉ continuations .conjunction) :
    Ends (chainMore tokens (call tokens calls .conjunction) loops chain links) start
      (Meets tokens stop .exclusive start.cursor.position depth
        start.cursor.position (BehindChain links chain start)) := by
  -- The levels that are open exceed those before the chain by its links.
  induction loops generalizing chain links start with
  | zero => exact absurd hloops (Nat.not_lt_zero _)
  | succ loops ih =>
      refine Ends.bind_of_run (run_peek start) ?_
      split
      next htoken =>
        refine ends_level hstop h (by simp [htoken]) hwithin
          (fun _ => enough_of_le (Nat.le_succ _) henough) (Nat.le_succ _) (leads_chain htoken)
          (fun hfull u r hr => htoken ▸ rejects_chain hfull hr)
          fun f trail hwithin' hlt hdepth' hstops' => ?_
        rw [hdepth, Nat.add_assoc] at hdepth'
        have hle := hwithin'.position_le
        exact ih _ hwithin' hdepth' (by omega) (enough_of_le (Nat.le_of_lt hlt) henough) hstops'
      next htoken =>
        have hle : links ≤ start.cursor.depth := by omega
        refine Ends.bind_of_run (run_closeLevels hle) (ends_pure_iff.mpr ?_)
        refine ⟨hwithin.close links, Nat.le_refl _, ?_, ?_, ?_⟩
        · rw [Trail.depth_close]
          omega
        · exact fun hmem => (List.mem_cons.mp hmem).elim htoken hstops
        · rintro u r ⟨-, -, u', hlinks, rfl⟩
          exact ⟨u', ⟨links, hlinks⟩, rfl⟩

end

/-! ## Calls -/

section

variable (hstop : IsStop tokens stop) (hwithin : start.Within stop)
include hstop hwithin

/-- A token that is a whole phrase is taken in. -/
theorem advance_keeps {f : Formula} (hend : tokenAt tokens start.cursor.position ≠ .endOfInput)
    (hfeed : ∀ u, (Reading.awaiting u).feed maxDepth (tokenAt tokens start.cursor.position) =
      .ok (.complete (u.modify (·.receive f)))) :
    Ends (do advance tokens; return f) start (Keeps tokens stop .primary start) := by
  have hlt := hwithin.position_lt hstop hend
  refine Ends.bind_of_run (run_advance (Nat.lt_of_lt_of_le hlt hstop.le_length))
    (ends_pure_iff.mpr ⟨hwithin.advance hlt, Nat.le_refl _, rfl, List.not_mem_nil, ?_⟩)
  rintro u r ⟨-, -, rfl⟩
  exact ⟨_, rfl, resume_of_feed hend (hfeed u)⟩

variable (h : Sound tokens stop calls)
include h

theorem call_joining_keeps (c : Connective)
    (henough : enough (.joining c) (stop - start.cursor.position) ≤ calls + 1) :
    Ends (call tokens (calls + 1) (.joining c)) start (Keeps tokens stop (.joining c) start) := by
  have hcall : call tokens (calls + 1) (.joining c) = (do
      let first ← call tokens calls (.operand c)
      joinMore tokens c (call tokens calls (.operand c)) calls first) := by
    cases c <;> rfl
  have hrank : rank (.operand c) < rank (.joining c) := by cases c <;> decide
  have hless := enough_of_rank_lt hrank henough
  rw [hcall]
  refine (h _ start hwithin hless).followed (Nat.le_refl _)
    (leads_first starts_operand leaves_joining) fun f trail hwithin' hlt hdepth hstops => ?_
  have hless' := enough_of_le (Nat.le_of_lt hlt) hless
  rw [← hdepth]
  exact joinMore_meets hstop h f hwithin' (lt_of_enough hless') hless' hstops

theorem call_exclusive_keeps
    (henough : enough .exclusive (stop - start.cursor.position) ≤ calls + 1) :
    Ends (call tokens (calls + 1) .exclusive) start (Keeps tokens stop .exclusive start) := by
  have hless : enough .conjunction _ ≤ calls := enough_of_rank_lt (by decide) henough
  refine (h _ start hwithin hless).followed (Nat.le_refl _) (leads_first And.right links_zero)
    fun f trail hwithin' hlt hdepth hstops => ?_
  have hless' := enough_of_le (Nat.le_of_lt hlt) hless
  exact chainMore_meets hstop h f hwithin' hdepth (lt_of_enough hless') hless' hstops

theorem call_unary_keeps
    (henough : enough .unary (stop - start.cursor.position) ≤ calls + 1) :
    Ends (call tokens (calls + 1) .unary) start (Keeps tokens stop .unary start) := by
  refine Ends.bind_of_run (run_peek start) ?_
  split
  next htoken =>
    have hopening := htoken ▸ opening_not
    refine ends_level hstop h hopening.ne_endOfInput hwithin
      (fun hlt => enough_of_lt hlt henough _) (Nat.le_refl _) (leads_opening hopening)
      (fun hfull u r => rejects_opening hopening hfull)
      fun f trail hwithin' hlt hdepth hstops => ?_
    refine Ends.bind_of_run (run_closeLevels (by omega)) (ends_pure_iff.mpr ?_)
    refine ⟨hwithin'.close 1, Nat.le_refl _, ?_, hstops, ?_⟩
    · rw [Trail.depth_close, hdepth, Nat.add_sub_cancel]
    · rintro u r ⟨-, -, u', hleaves, rfl⟩
      exact ⟨u', leaves_not hleaves, rfl⟩
  next htoken =>
    have hless : enough .primary _ ≤ calls := enough_of_rank_lt (by decide) henough
    exact (h .primary start hwithin hless).mono fun outcome last hlast =>
      hlast.of_procedure rfl (fun hr => ⟨htoken, hr.2⟩) id

theorem call_primary_keeps
    (henough : enough .primary (stop - start.cursor.position) ≤ calls + 1) :
    Ends (call tokens (calls + 1) .primary) start (Keeps tokens stop .primary start) := by
  refine Ends.bind_of_run (run_peek start) ?_
  split
  next name htoken =>
    exact advance_keeps hstop hwithin (by simp [htoken]) fun u => by rw [htoken]; rfl
  next value htoken =>
    exact advance_keeps hstop hwithin (by simp [htoken]) fun u => by rw [htoken]; rfl
  next htoken =>
    have hopening := htoken ▸ opening_openParen
    refine ends_level hstop h hopening.ne_endOfInput hwithin
      (fun hlt => enough_of_lt hlt henough _) (Nat.le_refl _) (leads_opening hopening)
      (fun hfull u r => rejects_opening hopening hfull)
      fun f trail hwithin' hlt hdepth hstops => ?_
    by_cases hclose : tokenAt tokens trail.cursor.position = .closeParen
    · have hlt' := hwithin'.position_lt hstop (by simp [hclose])
      have hle : 1 ≤ trail.advance.cursor.depth := by
        rw [Trail.depth_advance]
        omega
      refine Ends.bind_of_run (run_eat_of_eq hclose (Nat.lt_of_lt_of_le hlt' hstop.le_length)) ?_
      refine Ends.bind_of_run (run_closeLevels hle) (ends_pure_iff.mpr ?_)
      refine ⟨(hwithin'.advance hlt').close 1, Nat.le_succ _, ?_, List.not_mem_nil, ?_⟩
      · rw [Trail.depth_close, Trail.depth_advance, hdepth, Nat.add_sub_cancel]
      · rintro u r ⟨-, -, u', hleaves, rfl⟩
        refine ⟨_, rfl, resume_of_feed (by simp [hclose]) ?_⟩
        rw [hclose, feed_closeParen hleaves]
    · refine Ends.bind_of_run (run_eat_of_ne hclose) (ends_refuse_iff.mpr ⟨hwithin', ?_⟩)
      rintro u r ⟨-, -, u', hleaves, rfl⟩
      exact resume_of_rejects (rejects_closing hleaves hstops hclose)
  next hvar hconst hopen =>
    refine ends_refuse_iff.mpr ⟨hwithin, ?_⟩
    rintro u r ⟨hnot, -, rfl⟩
    exact resume_of_rejects (rejects_operand hvar hconst hopen hnot)

end

/-- All calls that are enough end as they should. -/
theorem sound (hstop : IsStop tokens stop) (calls : Nat) : Sound tokens stop calls := by
  induction calls with
  | zero => exact fun p start _ henough => absurd henough (Nat.not_succ_le_zero _)
  | succ calls ih =>
      intro p start hwithin henough
      cases p with
      | expression =>
          exact (ih .disjunction start hwithin (Nat.le_of_succ_le_succ henough)).mono
            fun outcome last hlast => hlast.of_procedure rfl id id
      | disjunction => exact call_joining_keeps hstop hwithin ih .or henough
      | exclusive => exact call_exclusive_keeps hstop hwithin ih henough
      | conjunction => exact call_joining_keeps hstop hwithin ih .and henough
      | unary => exact call_unary_keeps hstop hwithin ih henough
      | primary => exact call_primary_keeps hstop hwithin ih henough

end Descent

end BooleanSteps
