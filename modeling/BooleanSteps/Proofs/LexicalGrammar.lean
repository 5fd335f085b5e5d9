import BooleanSteps.Proofs.Cuts

/-!
# Exactly the texts with a cut are read

A text that has a cut has only one, and its tokens are those that the text is read as. In a text
without a cut the failure is at a character that starts no lexeme, and what stands before it has
a cut.
-/

namespace BooleanSteps

namespace Token

/-! ## Spellings in front of a text -/

variable {spelling rest : List Char} {token token' : Token}

/-- A spelling starts with a character that separates no tokens. -/
theorem Spells.exists_cons (h : Spells spelling token) :
    ∃ ch others, spelling = ch :: others ∧ isSeparator ch = false := by
  cases h with
  | symbol hch =>
      exact ⟨_, [], rfl, isSeparator_eq_false_of_ofSymbol? (ofSymbol?_eq_some_iff.mpr hch)⟩
  | name hname =>
      obtain ⟨first, others, rfl, halpha, -⟩ := hname
      exact ⟨first, others, rfl, isSeparator_eq_false_of_isAlpha halpha⟩

theorem IsName.forall_isNameCharacter {chars : List Char} (h : IsName chars) :
    ∀ ch ∈ chars, isNameCharacter ch := by
  obtain ⟨first, others, rfl, halpha, -, -, hothers⟩ := h
  refine List.forall_mem_cons.mpr ⟨?_, hothers⟩
  simp [isNameCharacter, Char.isAlphanum, halpha]

/-- The characters in front of a text that spell a token: one symbol, or all characters up to the
first that does not continue a name. -/
def munch : List Char → List Char
  | [] => []
  | ch :: rest => if (ofSymbol? ch).isSome then [ch] else (ch :: rest).takeWhile isNameCharacter

theorem Spells.munch_append (h : Spells spelling token)
    (hends : (∃ name, token = .var name) → EndsName rest) :
    munch (spelling ++ rest) = spelling := by
  cases h with
  | symbol hch =>
      rw [List.cons_append, munch, ofSymbol?_eq_some_iff.mpr hch]
      rfl
  | name hname =>
      have hall := hname.forall_isNameCharacter
      obtain ⟨first, others, rfl, halpha, hv, hV, -⟩ := hname
      rw [List.cons_append, munch, ofSymbol?_eq_none_of_isAlpha halpha hv hV, ← List.cons_append]
      exact takeWhile_append_of_endsName hall (hends ⟨_, rfl⟩)

theorem scan_spelling (h : Spells spelling token)
    (hends : (∃ name, token = .var name) → EndsName rest) (offset : Nat) :
    scan offset (spelling ++ rest) =
      (token :: ·) <$> scan (offset + byteCount spelling) rest := by
  cases h with
  | symbol hch => exact scan_symbol (ofSymbol?_eq_some_iff.mpr hch) offset rest
  | name hname => exact scan_name hname (hends ⟨_, rfl⟩) offset

theorem scan_nil (offset : Nat) : scan offset [] = .ok [.endOfInput] := by rw [scan]

/-- A spelling is read as the token that it spells, so it spells one token only. -/
theorem Spells.unique (h : Spells spelling token) (h' : Spells spelling token') :
    token = token' := by
  have hscan := scan_spelling h (fun _ => endsName_nil) 0
  rw [scan_spelling h' (fun _ => endsName_nil) 0, scan_nil] at hscan
  cases hscan
  rfl

/-- A character that is neither a symbol nor a letter starts no spelling. -/
theorem not_spells_cons {ch : Char} (hsymbol : ofSymbol? ch = none) (halpha : ch.isAlpha = false) :
    ¬ Spells (ch :: rest) token := by
  intro h
  cases h with
  | symbol hch =>
      rw [ofSymbol?_eq_some_iff.mpr hch] at hsymbol
      cases hsymbol
  | name hname =>
      obtain ⟨first, others, heq, hfirst, -⟩ := hname
      cases heq
      rw [halpha] at hfirst
      cases hfirst

end Token

open Token

/-! ## A text has one cut -/

/-- The lexeme can stand in front of the characters. -/
structure Lexeme.Fits (x : Lexeme) (rest : List Char) : Prop where
  separators : ∀ ch ∈ x.space, isSeparator ch
  spells : Spells x.spelling x.token
  ends : (∃ name, x.token = .var name) → EndsName rest

variable {x y : Lexeme} {lexemes lexemes' : List Lexeme} {tail tail' chars rest rest' : List Char}

theorem Lexeme.Fits.takeWhile_eq (h : x.Fits rest) :
    (x.chars ++ rest).takeWhile isSeparator = x.space := by
  obtain ⟨ch, others, heq, hch⟩ := h.spells.exists_cons
  rw [Lexeme.chars, List.append_assoc, List.takeWhile_append_of_pos h.separators, heq,
    List.cons_append, List.takeWhile_cons_of_neg (by simp [hch]), List.append_nil]

/-- Both parts of the lexeme in front can be found in the text. -/
theorem Lexeme.Fits.unique (hx : x.Fits rest) (hy : y.Fits rest')
    (heq : x.chars ++ rest = y.chars ++ rest') : x = y ∧ rest = rest' := by
  have hspace : x.space = y.space := by
    rw [← hx.takeWhile_eq, heq, hy.takeWhile_eq]
  simp only [Lexeme.chars, List.append_assoc, hspace, List.append_cancel_left_eq] at heq
  have hspelling : x.spelling = y.spelling := by
    rw [← hx.spells.munch_append hx.ends, heq, hy.spells.munch_append hy.ends]
  rw [hspelling, List.append_cancel_left_eq] at heq
  have htoken : x.token = y.token := hx.spells.unique (hspelling ▸ hy.spells)
  cases x
  cases y
  cases hspace
  cases hspelling
  cases htoken
  exact ⟨rfl, heq⟩

/-- There is a character in front that separates no tokens. -/
theorem Lexeme.Fits.ne_separators (h : x.Fits rest) (htail : ∀ ch ∈ tail, isSeparator ch) :
    x.chars ++ rest ≠ tail := by
  rintro rfl
  obtain ⟨ch, others, heq, hch⟩ := h.spells.exists_cons
  have hseparator := htail ch (by simp [Lexeme.chars, heq])
  rw [hch] at hseparator
  cases hseparator

theorem IsCut.unique (h : IsCut lexemes tail chars) (h' : IsCut lexemes' tail' chars) :
    lexemes = lexemes' ∧ tail = tail' := by
  induction h generalizing lexemes' tail' with
  | @last tail htail =>
      generalize heq : tail = chars at h'
      cases h' with
      | last =>
          cases heq
          exact ⟨rfl, rfl⟩
      | @lexeme y _ _ rest hspace hspells hends =>
          have hy : y.Fits rest := ⟨hspace, hspells, hends⟩
          exact absurd heq.symm (hy.ne_separators htail)
  | @lexeme x lexemes tail rest hspace hspells hends hcut ih =>
      have hx : x.Fits rest := ⟨hspace, hspells, hends⟩
      generalize heq : x.chars ++ rest = chars at h'
      cases h' with
      | last htail => exact absurd heq (hx.ne_separators htail)
      | @lexeme y _ _ rest' hspace' hspells' hends' hcut' =>
          obtain ⟨rfl, rfl⟩ := hx.unique ⟨hspace', hspells', hends'⟩ heq
          obtain ⟨rfl, rfl⟩ := ih hcut'
          exact ⟨rfl, rfl⟩

/-! ## A cut is read -/

theorem scan_of_isCut (h : IsCut lexemes tail chars) (offset : Nat) :
    scan offset chars = .ok (lexemes.map Lexeme.token ++ [.endOfInput]) := by
  induction h generalizing offset with
  | @last tail htail =>
      have hscan := scan_separators htail offset []
      rw [List.append_nil, scan_nil] at hscan
      exact hscan
  | lexeme hspace hspells hends _ ih =>
      rw [Lexeme.chars, List.append_assoc, scan_separators hspace, scan_spelling hspells hends, ih]
      rfl

theorem scan_eq_ok_iff {offset : Nat} {tokens : List Token} :
    scan offset chars = .ok (tokens ++ [.endOfInput]) ↔
      ∃ lexemes tail, IsCut lexemes tail chars ∧ tokens = lexemes.map Lexeme.token := by
  constructor
  · intro h
    obtain ⟨lexemes, tail, hcut, heq⟩ := exists_isCut_of_scan h
    exact ⟨lexemes, tail, hcut, List.append_cancel_right heq⟩
  · rintro ⟨lexemes, tail, hcut, rfl⟩
    exact scan_of_isCut hcut offset

/-! ## Where there is no cut -/

theorem eq_error_of_cons_eq_error {read : Except LexicalError (List Token)} {token : Token}
    {e : LexicalError} (h : (do let others ← read; return token :: others) = .error e) :
    read = .error e := by
  cases read with
  | error e' =>
      cases h
      rfl
  | ok others => cases h

/-- The failure is at the character behind `before`, which starts no lexeme. What stands before it
has a cut. -/
structure LexicalError.Locates (e : LexicalError) (offset : Nat) (before : List Char) : Prop where
  offset_eq : e.offset = offset + byteCount before
  separator_eq : isSeparator e.character = false
  symbol_eq : ofSymbol? e.character = none
  alpha_eq : e.character.isAlpha = false
  cut : ∃ lexemes tail, IsCut lexemes tail before

/-- More of the text is before the failure, and has a cut too. -/
theorem LexicalError.Locates.behind {e : LexicalError} {offset : Nat} {before : List Char}
    (front : List Char) (h : e.Locates (offset + byteCount front) before)
    (hcut : ∃ lexemes tail, IsCut lexemes tail (front ++ before)) :
    e.Locates offset (front ++ before) where
  offset_eq := by rw [h.offset_eq, byteCount_append, Nat.add_assoc]
  separator_eq := h.separator_eq
  symbol_eq := h.symbol_eq
  alpha_eq := h.alpha_eq
  cut := hcut

theorem exists_of_scan_eq_error {offset : Nat} {e : LexicalError}
    (h : scan offset chars = .error e) :
    ∃ before after, chars = before ++ e.character :: after ∧ e.Locates offset before := by
  fun_induction scan offset chars with
  | case1 => cases h
  | case2 offset ch rest hseparator ih =>
      obtain ⟨before, after, rfl, hlocates⟩ := ih h
      obtain ⟨lexemes, tail, hcut⟩ := hlocates.cut
      obtain ⟨lexemes', tail', hcut', -⟩ := hcut.separator hseparator
      exact ⟨ch :: before, after, rfl, hlocates.behind [ch] ⟨_, _, hcut'⟩⟩
  | case3 offset ch rest hseparator token hsymbol ih =>
      obtain ⟨before, after, rfl, hlocates⟩ := ih (eq_error_of_cons_eq_error h)
      obtain ⟨lexemes, tail, hcut⟩ := hlocates.cut
      exact ⟨ch :: before, after, rfl, hlocates.behind [ch] ⟨_, _, hcut.symbol hsymbol⟩⟩
  | case4 offset ch rest hseparator hsymbol halpha name ih =>
      obtain ⟨before, after, heq, hlocates⟩ := ih (eq_error_of_cons_eq_error h)
      obtain ⟨lexemes, tail, hcut⟩ := hlocates.cut
      have hends : EndsName before := EndsName.of_append (heq ▸ endsName_dropWhile rest)
      have hname : IsName name := isName_takeWhile hsymbol halpha rest
      refine ⟨name ++ before, after, ?_, hlocates.behind name ⟨_, _, hcut.name hname hends⟩⟩
      rw [List.append_assoc, ← heq, List.cons_append, List.takeWhile_append_dropWhile]
  | case5 offset ch rest hseparator hsymbol halpha =>
      cases h
      refine ⟨[], rest, rfl, rfl, ?_, hsymbol, ?_, [], [], IsCut.last (by simp)⟩
      · simpa using hseparator
      · simpa using halpha

/-! ## Texts -/

/-- What a failure names: the first character that starts no lexeme, with its offset in bytes. -/
theorem exists_of_tokenize_eq_error {text : String} {e : LexicalError}
    (h : tokenize text = .error e) :
    ∃ before ch after, text = before ++ String.singleton ch ++ after ∧
      e = ⟨ch, before.utf8ByteSize⟩ ∧ ¬ isSeparator ch ∧
      (¬ ∃ spelling token, Spells (ch :: spelling) token) ∧
      ∃ tokens, tokenize before = .ok tokens := by
  obtain ⟨before, after, heq, hlocates⟩ := exists_of_scan_eq_error h
  obtain ⟨lexemes, tail, hcut⟩ := hlocates.cut
  refine ⟨.ofList before, e.character, .ofList after, ?_, ?_, ?_, ?_, ?_⟩
  · apply String.toList_injective
    simpa using heq
  · rw [utf8ByteSize_ofList, ← Nat.zero_add (byteCount before), ← hlocates.offset_eq]
  · simp [hlocates.separator_eq]
  · rintro ⟨spelling, token, hspells⟩
    exact not_spells_cons hlocates.symbol_eq hlocates.alpha_eq hspells
  · refine ⟨lexemes.map Lexeme.token ++ [.endOfInput], ?_⟩
    rw [tokenize, String.toList_ofList]
    exact scan_of_isCut hcut 0

/-- A text is read as the tokens of a cut, and it has one cut at most. If it has none, the
failure is at the first character that can be part of none: it starts no lexeme, and what stands
before it is read. -/
theorem Token.tokenize_eq_ok_iff_isCut (text : String) :
    (∀ tokens, tokenize text = .ok (tokens ++ [.endOfInput]) ↔
      ∃ lexemes tail, IsCut lexemes tail text.toList ∧ tokens = lexemes.map Lexeme.token) ∧
    Subsingleton {cut : List Lexeme × List Char // IsCut cut.1 cut.2 text.toList} ∧
    ((∃ lexemes tail, IsCut lexemes tail text.toList) ∨
      ∃ before ch after, text = before ++ String.singleton ch ++ after ∧
        tokenize text = .error ⟨ch, before.utf8ByteSize⟩ ∧ ¬ isSeparator ch ∧
        (¬ ∃ spelling token, Spells (ch :: spelling) token) ∧
        ∃ tokens, tokenize before = .ok tokens) := by
  refine ⟨fun tokens => scan_eq_ok_iff, ⟨?_⟩, ?_⟩
  · rintro ⟨⟨lexemes, tail⟩, hcut⟩ ⟨⟨lexemes', tail'⟩, hcut'⟩
    obtain ⟨rfl, rfl⟩ := hcut.unique hcut'
    rfl
  · cases htokenize : tokenize text with
    | ok tokens =>
        obtain ⟨lexemes, tail, hcut, -⟩ := exists_isCut_of_scan htokenize
        exact .inl ⟨lexemes, tail, hcut⟩
    | error e =>
        obtain ⟨before, ch, after, htext, rfl, hrest⟩ := exists_of_tokenize_eq_error htokenize
        exact .inr ⟨before, ch, after, htext, rfl, hrest⟩

end BooleanSteps
