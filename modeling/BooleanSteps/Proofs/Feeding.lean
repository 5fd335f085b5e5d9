import BooleanSteps.Formula.Parser

/-!
# Feeding several tokens

Reading a list of tokens is feeding them one after the other, up to the first end, and
then asking whether the group may end there. What is read first does not depend on what
follows.
-/

namespace BooleanSteps

/-- Reads tokens none of which is the end. -/
def Reading.feedAll (limit : Nat) (r : Reading) (tokens : List Token) :
    Except ParseFault Reading :=
  tokens.foldlM (Reading.feed limit) r

namespace Reading

variable {limit : Nat}

@[simp] theorem feedAll_nil (r : Reading) : r.feedAll limit [] = .ok r := rfl

theorem feedAll_cons {r next : Reading} {token : Token} (h : r.feed limit token = .ok next)
    (tokens : List Token) : r.feedAll limit (token :: tokens) = next.feedAll limit tokens := by
  rw [feedAll, List.foldlM_cons, h]
  rfl

theorem feedAll_singleton (r : Reading) (token : Token) :
    r.feedAll limit [token] = r.feed limit token := by
  rw [feedAll, List.foldlM_cons]
  exact bind_pure _

theorem feedAll_append {r next : Reading} {tokens : List Token}
    (h : r.feedAll limit tokens = .ok next) (others : List Token) :
    r.feedAll limit (tokens ++ others) = next.feedAll limit others := by
  rw [feedAll] at h
  rw [feedAll, List.foldlM_append, h]
  rfl

theorem feedAll_cons_error {r : Reading} {token : Token} {fault : ParseFault}
    (h : r.feed limit token = .error fault) (tokens : List Token) :
    r.feedAll limit (token :: tokens) = .error fault := by
  rw [feedAll, List.foldlM_cons, h]
  rfl

theorem feedAll_append_error {r : Reading} {tokens : List Token} {fault : ParseFault}
    (h : r.feedAll limit tokens = .error fault) (others : List Token) :
    r.feedAll limit (tokens ++ others) = .error fault := by
  rw [feedAll] at h
  rw [feedAll, List.foldlM_append, h]
  rfl

theorem mapError_eq_ok_iff {ε δ α : Type} {x : Except ε α} {change : ε → δ} {a : α} :
    x.mapError change = .ok a ↔ x = .ok a := by
  cases x with
  | error e => constructor <;> intro h <;> cases h
  | ok b =>
      constructor
      · intro h
        cases h
        rfl
      · intro h
        cases h
        rfl

theorem read_cons {r next : Reading} {token : Token} (hend : token ≠ .endOfInput)
    (h : r.feed limit token = .ok next) (position : Nat) (tokens : List Token) :
    r.read limit position (token :: tokens) = next.read limit (position + 1) tokens := by
  rw [read, h]
  simpa using hend

theorem read_cons_error {r : Reading} {token : Token} {fault : ParseFault}
    (hend : token ≠ .endOfInput) (h : r.feed limit token = .error fault) (position : Nat)
    (tokens : List Token) :
    r.read limit position (token :: tokens) = .error ⟨fault, token, position⟩ := by
  rw [read, h]
  simpa using hend

/-- Reading succeeds where all tokens before the first end are fed and the group may end. -/
theorem read_eq_ok_iff (position : Nat) {r : Reading} {tokens : List Token} {f : Formula} :
    r.read limit position tokens = .ok f ↔
      ∃ last, r.feedAll limit (tokens.takeWhile (· ≠ .endOfInput)) = .ok last ∧
        last.finish = .ok f := by
  induction tokens generalizing r position with
  | nil =>
      rw [read, List.takeWhile_nil, mapError_eq_ok_iff]
      simp
  | cons token tokens ih =>
      by_cases hend : token = .endOfInput
      · subst hend
        rw [read, List.takeWhile_cons_of_neg (by decide), mapError_eq_ok_iff]
        simp
      · rw [List.takeWhile_cons_of_pos (by simpa using hend)]
        cases hfeed : r.feed limit token with
        | ok next => rw [feedAll_cons hfeed, ← ih (position + 1), read_cons hend hfeed]
        | error fault =>
            rw [feedAll_cons_error hfeed, read_cons_error hend hfeed]
            constructor
            · intro h
              cases h
            · rintro ⟨last, h, -⟩
              cases h

/-- Reading fails where a token before the first end cannot be fed, for the same reason. -/
theorem exists_read_eq_error (position : Nat) {r : Reading} {tokens : List Token}
    {fault : ParseFault} (h : r.feedAll limit (tokens.takeWhile (· ≠ .endOfInput)) = .error fault) :
    ∃ found position', r.read limit position tokens = .error ⟨fault, found, position'⟩ := by
  induction tokens generalizing r position with
  | nil => cases h
  | cons token tokens ih =>
      by_cases hend : token = .endOfInput
      · subst hend
        cases h
      · rw [List.takeWhile_cons_of_pos (by simpa using hend)] at h
        cases hfeed : r.feed limit token with
        | ok next =>
            rw [feedAll_cons hfeed] at h
            obtain ⟨found, position', hread⟩ := ih (position + 1) h
            exact ⟨found, position', by rw [read_cons hend hfeed, hread]⟩
        | error fault' =>
            rw [feedAll_cons_error hfeed] at h
            cases h
            exact ⟨token, position, read_cons_error hend hfeed position tokens⟩

end Reading

end BooleanSteps
