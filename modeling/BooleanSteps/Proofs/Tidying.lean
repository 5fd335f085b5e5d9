import BooleanSteps.Proofs.LexicalGrammar
import BooleanSteps.Proofs.ReadFormulas
import BooleanSteps.Proofs.Words
import BooleanSteps.Report

/-!
# Tidying a text keeps its tokens

A text is tidied by every blank character but cut into tokens at four of them, and any other
blank character is a failure. So a text that can be cut has no other, and there a space in place
of a run of separators ends the same names, and an ampersand in place of a middle dot spells the
same token. A failure at a character that is not blank is found before any other kind of blank.
-/

namespace BooleanSteps

namespace Token

open Text (isBlank IsWord EndsWord squeeze)

variable {chars rest rest' : List Char} {ch : Char} {token : Token}

/-! ## What is read, wherever it stands -/

/-- The tokens of the characters, or the first character that starts none. -/
def scanned (chars : List Char) : Except Char (List Token) :=
  (scan 0 chars).mapError LexicalError.character

theorem mapError_map {ε δ α β : Type} (x : Except ε α) (f : α → β) (change : ε → δ) :
    (f <$> x).mapError change = f <$> x.mapError change := by
  cases x <;> rfl

/-- Only the offset of a failure depends on where the characters stand. -/
theorem mapError_scan (offset : Nat) (chars : List Char) :
    (scan offset chars).mapError LexicalError.character = scanned chars := by
  unfold scanned
  generalize 0 = origin
  induction chars using scan_induction generalizing offset origin with
  | nil => rw [scan_nil, scan_nil]
  | separator ch rest hch ih => rw [scan_separator hch, scan_separator hch, ih]
  | symbol ch token rest hch ih =>
      rw [scan_symbol hch, scan_symbol hch, mapError_map, mapError_map, ih]
  | name name rest hname hrest ih =>
      rw [scan_name hname hrest, scan_name hname hrest, mapError_map, mapError_map, ih]
  | stray ch rest hseparator hsymbol halpha =>
      rw [scan_stray hseparator hsymbol halpha, scan_stray hseparator hsymbol halpha]
      rfl

theorem scanned_separator (hch : isSeparator ch = true) (rest : List Char) :
    scanned (ch :: rest) = scanned rest := by
  rw [scanned, scan_separator hch, mapError_scan]

theorem scanned_symbol (hch : ofSymbol? ch = some token) (rest : List Char) :
    scanned (ch :: rest) = (token :: ·) <$> scanned rest := by
  rw [scanned, scan_symbol hch, mapError_map, mapError_scan]

theorem scanned_name (hchars : IsName chars) (hrest : EndsName rest) :
    scanned (chars ++ rest) = (.var (.ofList chars) :: ·) <$> scanned rest := by
  rw [scanned, scan_name hchars hrest, mapError_map, mapError_scan]

theorem scanned_stray (hseparator : isSeparator ch = false) (hsymbol : ofSymbol? ch = none)
    (halpha : ch.isAlpha = false) (rest : List Char) : scanned (ch :: rest) = .error ch := by
  rw [scanned, scan_stray hseparator hsymbol halpha]
  rfl

/-! ## Another dot -/

theorem replaceDot_of_ne (h : ch ≠ '·') : replaceDot ch = ch := if_neg h

theorem replaceDot_ne (ch : Char) : replaceDot ch ≠ '·' := by
  unfold replaceDot
  split
  · decide
  · assumption

/-- A test that does not tell the two characters apart gives what it gave before. -/
theorem apply_replaceDot {α : Type} {test : Char → α} (h : test '&' = test '·') (ch : Char) :
    test (replaceDot ch) = test ch := by
  by_cases hch : ch = '·'
  · rw [hch]
    exact h
  · rw [replaceDot_of_ne hch]

theorem ofSymbol?_replaceDot (ch : Char) : ofSymbol? (replaceDot ch) = ofSymbol? ch :=
  apply_replaceDot rfl ch

theorem isNameCharacter_replaceDot (ch : Char) :
    isNameCharacter (replaceDot ch) = isNameCharacter ch :=
  apply_replaceDot rfl ch

theorem endsName_map_replaceDot (h : EndsName rest) : EndsName (rest.map replaceDot) := by
  cases rest with
  | nil => exact endsName_nil
  | cons ch rest =>
      have hch : isNameCharacter ch = false := by simpa using h ch rfl
      exact endsName_cons ((isNameCharacter_replaceDot ch).trans hch) _

theorem map_replaceDot_of_ne (h : ∀ ch ∈ chars, ch ≠ '·') : chars.map replaceDot = chars := by
  rw [List.map_congr_left fun ch hch => replaceDot_of_ne (h ch hch), List.map_id']

/-- The two characters spell the same token, and no other character is touched. -/
theorem scanned_map_replaceDot (chars : List Char) :
    scanned (chars.map replaceDot) = scanned chars := by
  induction chars using scan_induction with
  | nil => rfl
  | separator ch rest hch ih =>
      have hne : ch ≠ '·' := by
        rintro rfl
        cases hch
      rw [List.map_cons, replaceDot_of_ne hne, scanned_separator hch, scanned_separator hch, ih]
  | symbol ch token rest hch ih =>
      rw [List.map_cons, scanned_symbol ((ofSymbol?_replaceDot ch).trans hch),
        scanned_symbol hch, ih]
  | name name rest hname hrest ih =>
      have hne : ∀ ch ∈ name, ch ≠ '·' := by
        rintro ch hch rfl
        cases hname.forall_isNameCharacter _ hch
      rw [List.map_append, map_replaceDot_of_ne hne, scanned_name hname hrest,
        scanned_name hname (endsName_map_replaceDot hrest), ih]
  | stray ch rest hseparator hsymbol halpha =>
      have hne : ch ≠ '·' := by
        rintro rfl
        cases hsymbol
      rw [List.map_cons, replaceDot_of_ne hne, scanned_stray hseparator hsymbol halpha,
        scanned_stray hseparator hsymbol halpha]

/-! ## Blank characters -/

theorem toNat_of_isBlank (h : isBlank ch = true) : ch.toNat ≤ 32 ∨ 133 ≤ ch.toNat := by
  simp only [isBlank, Text.blankRanges, List.any_cons, List.any_nil, Bool.or_false,
    Bool.or_eq_true, Bool.and_eq_true, decide_eq_true_eq] at h
  omega

theorem toNat_of_isNameCharacter (h : isNameCharacter ch = true) :
    48 ≤ ch.toNat ∧ ch.toNat ≤ 122 := by
  have hbetween {first last : UInt32} (hfirst : 48 ≤ first.toNat) (hlast : last.toNat ≤ 122)
      (hch : first ≤ ch.val ∧ ch.val ≤ last) : 48 ≤ ch.toNat ∧ ch.toNat ≤ 122 :=
    ⟨Nat.le_trans hfirst (UInt32.le_iff_toNat_le.mp hch.1),
      Nat.le_trans (UInt32.le_iff_toNat_le.mp hch.2) hlast⟩
  simp only [isNameCharacter, Char.isAlphanum, Bool.or_eq_true, beq_iff_eq] at h
  rcases h with (halpha | hdigit) | rfl
  · rcases Bool.or_eq_true_iff.mp halpha with hupper | hlower
    · exact hbetween (by decide) (by decide) (of_decide_eq_true hupper)
    · obtain ⟨hfirst, hlast⟩ := Bool.and_eq_true_iff.mp hlower
      exact hbetween (by decide) (by decide)
        ⟨of_decide_eq_true hfirst, of_decide_eq_true hlast⟩
  · obtain ⟨hfirst, hlast⟩ := Char.isDigit_iff_toNat.mp hdigit
    exact ⟨hfirst, Nat.le_trans hlast (by decide)⟩
  · decide

/-- No blank character continues a name. -/
theorem isNameCharacter_of_isBlank (h : isBlank ch = true) : isNameCharacter ch = false := by
  rw [Bool.eq_false_iff]
  intro hname
  have hcode := toNat_of_isBlank h
  have hbounds := toNat_of_isNameCharacter hname
  omega

theorem isAlpha_of_isBlank (h : isBlank ch = true) : ch.isAlpha = false := by
  have hname := isNameCharacter_of_isBlank h
  simp only [isNameCharacter, Char.isAlphanum, Bool.or_eq_false_iff] at hname
  exact hname.1.1

/-- No blank character is a symbol. -/
theorem ofSymbol?_of_isBlank (h : isBlank ch = true) : ofSymbol? ch = none := by
  cases hch : ofSymbol? ch with
  | none => rfl
  | some token =>
      have hmem := ofSymbol?_eq_some_iff.mp hch
      have hall : token.symbols.all (!isBlank ·) := by
        cases token with
        | connective c => cases c <;> decide
        | const value => cases value <;> decide
        | openParen | closeParen | xor | not | endOfInput | var => rfl
      have hnot := List.all_eq_true.mp hall ch hmem
      rw [h] at hnot
      cases hnot

theorem endsName_of_endsWord (h : EndsWord rest) : EndsName rest := by
  intro ch hch
  simp [isNameCharacter_of_isBlank (h ch hch)]

/-! ## Fewer blanks -/

/-- The second outcome is the first, unless the first is a failure at a blank character. -/
def Keeps (read read' : Except Char (List Token)) : Prop :=
  (∀ ch, isBlank ch = true → read ≠ .error ch) → read' = read

theorem Keeps.refl (read : Except Char (List Token)) : Keeps read read := fun _ => rfl

theorem Keeps.map {read read' : Except Char (List Token)} (h : Keeps read read')
    (f : List Token → List Token) : Keeps (f <$> read) (f <$> read') := by
  intro hblank
  rw [h]
  rintro ch hch rfl
  exact hblank ch hch rfl

/-- What stands in front is read alike if a name there ends at the same place. -/
theorem Keeps.append (h : Keeps (scanned rest) (scanned rest')) (hrest : EndsName rest)
    (hrest' : EndsName rest') (front : List Char) :
    Keeps (scanned (front ++ rest)) (scanned (front ++ rest')) := by
  induction front using scan_induction with
  | nil => exact h
  | separator ch front hch ih =>
      rwa [List.cons_append, List.cons_append, scanned_separator hch, scanned_separator hch]
  | symbol ch token front hch ih =>
      rw [List.cons_append, List.cons_append, scanned_symbol hch, scanned_symbol hch]
      exact ih.map _
  | name name front hname hfront ih =>
      rw [List.append_assoc, List.append_assoc, scanned_name hname (EndsName.append hfront hrest),
        scanned_name hname (EndsName.append hfront hrest')]
      exact ih.map _
  | stray ch front hseparator hsymbol halpha =>
      rw [List.cons_append, List.cons_append, scanned_stray hseparator hsymbol halpha,
        scanned_stray hseparator hsymbol halpha]
      exact Keeps.refl _

/-- Squeezing skips the blank characters in front of a word, which are separators or a failure, and
leaves one separator behind the word, where a name has ended before. -/
theorem keeps_squeeze (chars : List Char) : Keeps (scanned chars) (scanned (squeeze chars)) := by
  induction chars using Text.words_induction with
  | nil => exact Keeps.refl _
  | blank ch rest hch ih =>
      rw [Text.squeeze_blank hch]
      cases hseparator : isSeparator ch with
      | true => rwa [scanned_separator hseparator]
      | false =>
          -- This character itself is a failure at a blank character.
          have hstray := scanned_stray hseparator (ofSymbol?_of_isBlank hch)
            (isAlpha_of_isBlank hch) rest
          exact fun hblank => absurd hstray (hblank ch hch)
  | word word rest hword hrest ih =>
      have hends := endsName_of_endsWord hrest
      rcases Text.squeeze_word hword hrest with ⟨hnil, heq⟩ | heq
      · rw [hnil] at ih
        rw [heq, ← List.append_nil word, List.append_assoc]
        exact ih.append hends endsName_nil word
      · rw [heq]
        have hspace : EndsName (' ' :: squeeze rest) := endsName_cons rfl _
        have hskipped : scanned (' ' :: squeeze rest) = scanned (squeeze rest) :=
          scanned_separator rfl _
        rw [← hskipped] at ih
        exact ih.append hends hspace word

/-! ## Texts -/

theorem tokenize_eq_ok_iff {text : String} {tokens : List Token} :
    tokenize text = .ok tokens ↔ scanned text.toList = .ok tokens :=
  Reading.mapError_eq_ok_iff.symm

theorem exists_of_scanned_eq_error {text : String} (h : scanned text.toList = .error ch) :
    ∃ e, tokenize text = .error e ∧ e.character = ch := by
  rw [scanned] at h
  cases hscan : scan 0 text.toList with
  | ok tokens =>
      rw [hscan] at h
      cases h
  | error e =>
      rw [hscan] at h
      cases h
      exact ⟨e, hscan, rfl⟩

theorem scanned_of_tokenize_eq_error {text : String} {e : LexicalError}
    (h : tokenize text = .error e) : scanned text.toList = .error e.character := by
  rw [scanned, ← tokenize, h]
  rfl

end Token

open Token Text

theorem toList_tidy (text : String) :
    (tidy text).toList = squeeze (text.toList.map replaceDot) := by
  rw [tidy, String.toList_intercalate, words, String.toList_map, List.map_map, squeeze]
  congr 1
  exact List.map_id'' (fun _ => String.toList_ofList) _

theorem keeps_tidy (text : String) : Keeps (scanned text.toList) (scanned (tidy text).toList) := by
  rw [toList_tidy, ← scanned_map_replaceDot text.toList]
  exact keeps_squeeze _

/-- A tidy text has no middle dot and no other blanks than those between its words. -/
theorem tidy_tidy (text : String) : tidy (tidy text) = tidy text := by
  have hdots : ∀ ch ∈ squeeze (text.toList.map replaceDot), ch ≠ '·' := by
    intro ch hch
    rcases mem_squeeze hch with rfl | hch
    · decide
    · obtain ⟨other, -, rfl⟩ := List.mem_map.mp hch
      exact replaceDot_ne other
  apply String.toList_injective
  rw [toList_tidy, toList_tidy, map_replaceDot_of_ne hdots, squeeze_squeeze]

/-- A text that can be cut and its tidy form have the same tokens, so they are read alike. If a
text cannot be cut because of a character that is not blank, its tidy form cannot because of the
same. Tidying a tidy text changes nothing. -/
theorem tokenize_tidy_and_tidy_idempotent (text : String) :
    (∀ tokens, tokenize text = .ok tokens →
      tokenize (tidy text) = .ok tokens ∧ Formula.parse (tidy text) = Formula.parse text) ∧
    (∀ e, tokenize text = .error e → isBlank e.character = false →
      ∃ e', tokenize (tidy text) = .error e' ∧ e'.character = e.character) ∧
    tidy (tidy text) = tidy text := by
  refine ⟨fun tokens htokens => ?_, fun e herror hblank => ?_, tidy_tidy text⟩
  · have hscanned := tokenize_eq_ok_iff.mp htokens
    have htidy : tokenize (tidy text) = .ok tokens := by
      rw [tokenize_eq_ok_iff, keeps_tidy text (by simp [hscanned]), hscanned]
    refine ⟨htidy, ?_⟩
    rw [Formula.parse_eq_of_tokenize htidy, Formula.parse_eq_of_tokenize htokens]
  · have hscanned := scanned_of_tokenize_eq_error herror
    have hkept : scanned (tidy text).toList = scanned text.toList := by
      apply keeps_tidy text
      rintro ch hch heq
      rw [hscanned, Except.error.injEq] at heq
      rw [heq, hch] at hblank
      cases hblank
    exact exists_of_scanned_eq_error (hkept.trans hscanned)

theorem tokenize_tidy_and_tidy_idempotent_two_texts :
    (tokenize (tidy " a·\tb ") = .ok [.var "a", .connective .and, .var "b", .endOfInput] ∧
      Formula.parse (tidy " a·\tb ") = Formula.parse " a·\tb ") ∧
    ∃ e, tokenize (tidy "a  #\u00a0b") = .error e ∧ e.character = '#' := by
  have hread : tokenize " a·\tb " = .ok [.var "a", .connective .and, .var "b", .endOfInput] := by
    change scan 0 (' ' :: (['a'] ++ '·' :: '\t' :: (['b'] ++ [' ']))) = _
    rw [scan_separator rfl, scan_name (by decide) (endsName_cons rfl _), scan_symbol rfl,
      scan_separator rfl, scan_name (by decide) (endsName_cons rfl _), scan_separator rfl, scan_nil]
    rfl
  have hfailure : tokenize "a  #\u00a0b" = .error ⟨'#', 3⟩ := by
    change scan 0 (['a'] ++ [' ', ' ', '#', '\u00a0', 'b']) = _
    rw [scan_name (by decide) (endsName_cons rfl _), scan_separator rfl, scan_separator rfl,
      scan_stray rfl rfl rfl]
    rfl
  exact ⟨(tokenize_tidy_and_tidy_idempotent " a·\tb ").1 _ hread,
    (tokenize_tidy_and_tidy_idempotent "a  #\u00a0b").2.1 _ hfailure (by decide)⟩

end BooleanSteps
