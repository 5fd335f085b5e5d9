import Mathlib.Control.Monad.Basic
import BooleanSteps.Proofs.Descending

/-!
# Every call closes the levels that it opens

Wherever a procedure starts, its call comes to an end, and never closes more levels than are open.
If it has read a phrase, as many levels are open as before. Reading all tokens by descent is reading
them with unfinished groups.
-/

namespace BooleanSteps

variable {tokens : List Token}

/-- The place of the first end at or behind the given place. If there is none, the place behind all
tokens. -/
def endPosition (tokens : List Token) (position : Nat) : Nat :=
  position + (tokens.drop position).findIdx (· = .endOfInput)

theorem isStop_endPosition {position : Nat} (h : position ≤ tokens.length) :
    IsStop tokens (endPosition tokens position) := by
  have hle : (tokens.drop position).findIdx (· = .endOfInput) ≤ (tokens.drop position).length :=
    List.findIdx_le_length
  rw [List.length_drop] at hle
  refine ⟨by rw [endPosition]; omega, ?_⟩
  by_cases hlt : (tokens.drop position).findIdx (· = .endOfInput) < (tokens.drop position).length
  · have hfound := List.findIdx_getElem (w := hlt)
    rw [List.getElem_drop, decide_eq_true_eq] at hfound
    rw [List.length_drop] at hlt
    have hin : endPosition tokens position < tokens.length := by
      rw [endPosition]
      omega
    rw [tokenAt, List.getD_eq_getElem _ _ hin]
    exact hfound
  · rw [List.length_drop] at hlt
    exact tokenAt_of_le (by rw [endPosition]; omega)

namespace Descent

open Reading

/-- Every call comes to an end, and ends alike if more calls are allowed. -/
theorem exists_run_call (tokens : List Token) (p : Procedure) (start : Cursor)
    (hposition : start.position ≤ tokens.length) (hdepth : start.depth ≤ maxDepth) :
    ∃ calls outcome trail,
      (∀ more, calls ≤ more →
        (call tokens more p).run.run ⟨start, []⟩ = some (outcome, trail)) ∧
      Keeps tokens (endPosition tokens start.position) p ⟨start, []⟩ outcome trail := by
  have hwithin : Trail.Within (endPosition tokens start.position) ⟨start, []⟩ :=
    List.forall_mem_singleton.mpr ⟨hdepth, Nat.le_add_right _ _⟩
  obtain ⟨outcome, trail, hrun, hkeeps⟩ :=
    sound (isStop_endPosition hposition) _ p ⟨start, []⟩ hwithin (Nat.le_refl _)
  exact ⟨_, outcome, trail, fun more hle => call_refines hle p _ _ hrun, hkeeps⟩

/-- Reading all tokens by descent is reading them with unfinished groups. -/
theorem exists_run_readAll (tokens : List Token) :
    ∃ calls trail, ∀ more, calls ≤ more →
      (readAll tokens more).run.run ⟨⟨0, 0⟩, []⟩ =
        some ((Formula.ofTokens tokens).mapError .refused, trail) := by
  obtain ⟨calls, outcome, trail, hrun, hkeeps⟩ :=
    exists_run_call tokens .expression ⟨0, 0⟩ (Nat.zero_le _) (Nat.zero_le _)
  have henters : Enters tokens .expression ⟨⟨0, 0⟩, []⟩ .start (.awaiting .start) := ⟨rfl, rfl, rfl⟩
  have hread : resume tokens 0 (.awaiting .start) = Formula.ofTokens tokens := rfl
  refine ⟨calls, trail, fun more hle => ?_⟩
  rw [← hread]
  cases outcome with
  | error e =>
      cases e with
      | underflow => exact hkeeps.elim
      | refused e =>
          rw [readAll, run_bind_of_error _ (hrun more hle), hkeeps.2 _ _ henters]
          rfl
  | ok f =>
      obtain ⟨u', hleaves, heq⟩ := hkeeps.reads _ _ henters
      rw [readAll, run_bind_of_ok _ (hrun more hle), run_bind_of_ok _ (run_peek trail), heq]
      split
      next hend =>
        rw [resume_of_end hend, finish_of_leaves hleaves]
        rfl
      next hend =>
        rw [resume_of_rejects (rejects_trailing hleaves hkeeps.stops hend)]
        rfl

/-- From wherever a procedure starts, its call comes to an end. While it runs, the open levels keep
to the limit, the cursor does not go behind the next end, and never are more levels closed than are
open. If it has read a phrase, the cursor has gone on and as many levels are open as before. What
reading by descent ends with is what reading with unfinished groups ends with. -/
theorem call_restores_depth (tokens : List Token) :
    (∀ (p : Procedure) (start : Cursor), start.position ≤ tokens.length → start.depth ≤ maxDepth →
      ∃ calls outcome trail,
        (∀ more, calls ≤ more →
          (call tokens more p).run.run ⟨start, []⟩ = some (outcome, trail)) ∧
        (∀ c ∈ trail.cursor :: trail.earlier,
          c.depth ≤ maxDepth ∧ c.position ≤ endPosition tokens start.position) ∧
        outcome ≠ .error .underflow ∧
        ∀ f, outcome = .ok f →
          start.position < trail.cursor.position ∧ trail.cursor.depth = start.depth) ∧
    ∃ calls trail, ∀ more, calls ≤ more →
      (readAll tokens more).run.run ⟨⟨0, 0⟩, []⟩ =
        some ((Formula.ofTokens tokens).mapError .refused, trail) := by
  refine ⟨fun p start hposition hdepth => ?_, exists_run_readAll tokens⟩
  obtain ⟨calls, outcome, trail, hrun, hkeeps⟩ := exists_run_call tokens p start hposition hdepth
  refine ⟨calls, outcome, trail, hrun, hkeeps.within, ?_, ?_⟩
  · rintro rfl
    exact hkeeps
  · rintro f rfl
    exact ⟨hkeeps.least_le, hkeeps.depth_eq⟩

/-- Two groups that are joined by `^`. The second one does not find the level of the first one
open. -/
def siblingGroups : List Token :=
  [.openParen, .var "a", .closeParen, .xor, .openParen, .var "b", .closeParen, .endOfInput,
    .var "c"]

theorem call_restores_depth_siblingGroups :
    (∃ calls outcome trail,
      (∀ more, calls ≤ more →
        (call siblingGroups more .exclusive).run.run ⟨⟨0, 254⟩, []⟩ = some (outcome, trail)) ∧
      (∀ c ∈ trail.cursor :: trail.earlier, c.depth ≤ maxDepth ∧ c.position ≤ 7) ∧
      outcome ≠ .error .underflow ∧
      ∀ f, outcome = .ok f → 0 < trail.cursor.position ∧ trail.cursor.depth = 254) ∧
    ((call siblingGroups 10 .exclusive).run.run ⟨⟨0, 254⟩, []⟩).map
        (fun result => (result.1, result.2.cursor)) =
      some (.ok (.xor (.var "a") (.var "b")), ⟨7, 254⟩) :=
  ⟨(call_restores_depth siblingGroups).1 .exclusive ⟨0, 254⟩ (by decide) (by decide),
    by decide +kernel⟩

end Descent

end BooleanSteps
