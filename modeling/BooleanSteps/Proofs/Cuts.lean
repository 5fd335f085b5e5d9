import BooleanSteps.Proofs.Scanning

/-!
# The tokens of a text are those of a cut

Cutting a text from the left, one lexeme after the other, gives a cut of it in the sense
that does not mention an order. So each token stands in the text with a spelling of it.
-/

namespace BooleanSteps

namespace Token

/-! ## Spellings -/

theorem Spells.ne_endOfInput {chars : List Char} {token : Token} (h : Spells chars token) :
    token ≠ .endOfInput := by
  rintro rfl
  cases h with
  | symbol hch => exact absurd hch List.not_mem_nil

theorem Spells.isName {chars : List Char} {name : String} (h : Spells chars (.var name)) :
    IsName name.toList := by
  cases h with
  | symbol hch => exact absurd hch List.not_mem_nil
  | name hname => rwa [String.toList_ofList]

end Token

open Token

/-! ## One more lexeme in front -/

variable {lexemes : List Lexeme} {tail chars : List Char}

theorem IsCut.symbol {ch : Char} {token : Token} (hsymbol : ofSymbol? ch = some token)
    (h : IsCut lexemes tail chars) : IsCut (⟨[], [ch], token⟩ :: lexemes) tail (ch :: chars) := by
  have hmem := ofSymbol?_eq_some_iff.mp hsymbol
  refine IsCut.lexeme (x := ⟨[], [ch], token⟩) (by simp) (Spells.symbol hmem) ?_ h
  rintro ⟨name, rfl⟩
  exact absurd hmem List.not_mem_nil

theorem IsCut.name {name : List Char} (hname : IsName name) (hends : EndsName chars)
    (h : IsCut lexemes tail chars) :
    IsCut (⟨[], name, .var (.ofList name)⟩ :: lexemes) tail (name ++ chars) :=
  IsCut.lexeme (x := ⟨[], name, .var (.ofList name)⟩) (by simp) (Spells.name hname)
    (fun _ => hends) h

/-- A separator in front belongs to the first lexeme, or to the tail if there is none. -/
theorem IsCut.separator {ch : Char} (hch : isSeparator ch = true)
    (h : IsCut lexemes tail chars) : ∃ lexemes' tail', IsCut lexemes' tail' (ch :: chars) ∧
      lexemes'.map Lexeme.token = lexemes.map Lexeme.token := by
  cases h with
  | last htail =>
      refine ⟨[], ch :: tail, IsCut.last ?_, rfl⟩
      exact List.forall_mem_cons.mpr ⟨hch, htail⟩
  | @lexeme x lexemes tail rest hspace hspells hends hcut =>
      refine ⟨{ x with space := ch :: x.space } :: lexemes, tail, ?_, rfl⟩
      exact IsCut.lexeme (x := { x with space := ch :: x.space })
        (List.forall_mem_cons.mpr ⟨hch, hspace⟩) hspells hends hcut

/-! ## The whole text -/

theorem exists_of_cons_eq_ok {x : Except LexicalError (List Token)} {token : Token}
    {tokens : List Token} (h : (do let others ← x; return token :: others) = .ok tokens) :
    ∃ others, x = .ok others ∧ tokens = token :: others := by
  cases x with
  | error e => cases h
  | ok others =>
      cases h
      exact ⟨others, rfl, rfl⟩

theorem exists_isCut_of_scan {offset : Nat} {chars : List Char} {tokens : List Token}
    (h : scan offset chars = .ok tokens) : ∃ lexemes tail, IsCut lexemes tail chars ∧
      tokens = lexemes.map Lexeme.token ++ [.endOfInput] := by
  fun_induction scan offset chars generalizing tokens with
  | case1 =>
      cases h
      exact ⟨[], [], IsCut.last (by simp), rfl⟩
  | case2 offset ch rest hseparator ih =>
      obtain ⟨lexemes, tail, hcut, rfl⟩ := ih h
      obtain ⟨lexemes', tail', hcut', heq⟩ := hcut.separator hseparator
      exact ⟨lexemes', tail', hcut', by rw [heq]⟩
  | case3 offset ch rest hseparator token hsymbol ih =>
      obtain ⟨others, hothers, rfl⟩ := exists_of_cons_eq_ok h
      obtain ⟨lexemes, tail, hcut, rfl⟩ := ih hothers
      exact ⟨_, tail, hcut.symbol hsymbol, rfl⟩
  | case4 offset ch rest hseparator hsymbol halpha name =>
      rename_i ih
      obtain ⟨others, hothers, rfl⟩ := exists_of_cons_eq_ok h
      obtain ⟨lexemes, tail, hcut, rfl⟩ := ih hothers
      have hcut' := hcut.name (isName_takeWhile hsymbol halpha rest) (endsName_dropWhile rest)
      rw [List.cons_append, List.takeWhile_append_dropWhile] at hcut'
      exact ⟨_, tail, hcut', rfl⟩
  | case5 => cases h

theorem IsCut.spells (h : IsCut lexemes tail chars) :
    ∀ x ∈ lexemes, Spells x.spelling x.token := by
  induction h with
  | last => simp
  | lexeme _ hspells _ _ ih => exact List.forall_mem_cons.mpr ⟨hspells, ih⟩

/-- A text is cut into spelled tokens and the end. -/
theorem exists_spells_of_tokenize {text : String} {tokens : List Token}
    (h : tokenize text = .ok tokens) : ∃ spelled, tokens = spelled ++ [.endOfInput] ∧
      ∀ token ∈ spelled, ∃ spelling, Spells spelling token := by
  obtain ⟨lexemes, tail, hcut, rfl⟩ := exists_isCut_of_scan h
  refine ⟨lexemes.map Lexeme.token, rfl, ?_⟩
  intro token htoken
  obtain ⟨x, hx, rfl⟩ := List.mem_map.mp htoken
  exact ⟨x.spelling, hcut.spells x hx⟩

end BooleanSteps
