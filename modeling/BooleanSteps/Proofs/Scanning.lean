import BooleanSteps.Token.Cut

/-!
# One lexeme in front

What cutting a text does with the characters in front: separators are passed over, a symbol is
a token alone, and a name is read up to the first character that does not continue it. No
character is in two of these classes, so the front of a text decides what is read.
-/

namespace BooleanSteps.Token

/-! ## Kinds of characters -/

/-- Each character that spells a token alone spells one token. -/
theorem ofSymbol?_eq_some_iff {ch : Char} {token : Token} :
    ofSymbol? ch = some token ↔ ch ∈ token.symbols := by
  constructor
  · intro h
    unfold ofSymbol? at h
    repeat' split at h
    all_goals cases h
    all_goals simp_all [symbols]
  · have hall : ∀ other ∈ token.symbols, ofSymbol? other = some token := by
      cases token with
      | openParen | closeParen | xor | not | endOfInput =>
          simp [symbols, ofSymbol?, andSymbols, orSymbols, xorSymbols, notSymbols]
      | connective c => cases c <;> simp [symbols, ofSymbol?, andSymbols, orSymbols]
      | const value =>
          cases value <;>
            simp [symbols, ofSymbol?, andSymbols, orSymbols, xorSymbols, notSymbols]
      | var name => exact fun other hother => absurd hother List.not_mem_nil
    exact hall ch

theorem ofSymbol?_eq_none_of_isAlpha {ch : Char} (halpha : ch.isAlpha = true) (hv : ch ≠ 'v')
    (hV : ch ≠ 'V') : ofSymbol? ch = none := by
  have hsymbols : ['(', ')', '&', '*', '·', '∧', '|', '+', '∨', '^', '⊕', '~', '!', '¬', '0',
      '1'].all fun other => !other.isAlpha := by decide
  have hne : ∀ other ∈ ['(', ')', '&', '*', '·', '∧', '|', '+', '∨', '^', '⊕', '~', '!',
      '¬', '0', '1'], ch ≠ other := by
    rintro other hother rfl
    have hfalse := List.all_eq_true.mp hsymbols ch hother
    rw [halpha] at hfalse
    cases hfalse
  simp only [List.forall_mem_cons] at hne
  unfold ofSymbol?
  simp [andSymbols, orSymbols, xorSymbols, notSymbols, hne, hv, hV]

theorem eq_of_isSeparator {ch : Char} (h : isSeparator ch = true) :
    ch = ' ' ∨ ch = '\t' ∨ ch = '\n' ∨ ch = '\r' := by
  simpa [isSeparator, or_assoc] using h

theorem isSeparator_eq_false_of_isAlpha {ch : Char} (halpha : ch.isAlpha = true) :
    isSeparator ch = false := by
  rw [Bool.eq_false_iff]
  intro hch
  rcases eq_of_isSeparator hch with rfl | rfl | rfl | rfl <;> exact absurd halpha (by decide)

theorem isSeparator_eq_false_of_ofSymbol? {ch : Char} {token : Token}
    (h : ofSymbol? ch = some token) : isSeparator ch = false := by
  rw [Bool.eq_false_iff]
  intro hch
  rcases eq_of_isSeparator hch with rfl | rfl | rfl | rfl <;> cases h

/-! ## Names -/

theorem isName_takeWhile {ch : Char} (hsymbol : ofSymbol? ch = none) (halpha : ch.isAlpha = true)
    (rest : List Char) : IsName (ch :: rest.takeWhile isNameCharacter) := by
  refine ⟨ch, _, rfl, halpha, ?_, ?_, ?_⟩
  · rintro rfl
    cases hsymbol
  · rintro rfl
    cases hsymbol
  · exact fun other hother => List.all_eq_true.mp List.all_takeWhile other hother

theorem takeWhile_append_of_endsName {chars rest : List Char}
    (h : ∀ ch ∈ chars, isNameCharacter ch) (hrest : EndsName rest) :
    (chars ++ rest).takeWhile isNameCharacter = chars := by
  rw [List.takeWhile_append_of_pos h]
  cases rest with
  | nil => simp
  | cons ch rest => simp [hrest ch rfl]

theorem dropWhile_append_of_endsName {chars rest : List Char}
    (h : ∀ ch ∈ chars, isNameCharacter ch) (hrest : EndsName rest) :
    (chars ++ rest).dropWhile isNameCharacter = rest := by
  rw [List.dropWhile_append_of_pos h]
  cases rest with
  | nil => rfl
  | cons ch rest => simp [hrest ch rfl]

theorem endsName_nil : EndsName [] := by simp [EndsName]

theorem endsName_cons {ch : Char} (hch : isNameCharacter ch = false) (rest : List Char) :
    EndsName (ch :: rest) := by
  simpa [EndsName] using hch

theorem EndsName.append {chars rest : List Char} (h : EndsName chars) (hrest : EndsName rest) :
    EndsName (chars ++ rest) := by
  cases chars with
  | nil => exact hrest
  | cons ch chars => exact h

theorem EndsName.of_append {chars others : List Char} (h : EndsName (chars ++ others)) :
    EndsName chars := by
  cases chars with
  | nil => exact endsName_nil
  | cons ch chars => exact h

theorem endsName_dropWhile (chars : List Char) : EndsName (chars.dropWhile isNameCharacter) := by
  intro ch hch
  have hnot := List.head?_dropWhile_not isNameCharacter chars
  rw [Option.mem_def.mp hch] at hnot
  simpa using hnot

/-! ## What is read -/

theorem byteCount_append (chars others : List Char) :
    byteCount (chars ++ others) = byteCount chars + byteCount others := by
  induction chars with
  | nil => simp [byteCount]
  | cons ch chars ih => simp [byteCount, ih, Nat.add_assoc]

theorem utf8ByteSize_ofList (chars : List Char) :
    (String.ofList chars).utf8ByteSize = byteCount chars := by
  induction chars with
  | nil => rfl
  | cons ch chars ih =>
      rw [String.ofList_cons, String.utf8ByteSize_append, String.utf8ByteSize_singleton, ih,
        byteCount]

theorem scan_separator {ch : Char} (hch : isSeparator ch = true) (offset : Nat)
    (rest : List Char) : scan offset (ch :: rest) = scan (offset + ch.utf8Size) rest := by
  rw [scan, if_pos hch]

theorem scan_separators {space : List Char} (h : ∀ ch ∈ space, isSeparator ch) (offset : Nat)
    (rest : List Char) : scan offset (space ++ rest) = scan (offset + byteCount space) rest := by
  induction space generalizing offset with
  | nil => rfl
  | cons ch space ih =>
      obtain ⟨hch, hspace⟩ := List.forall_mem_cons.mp h
      rw [List.cons_append, scan_separator hch, ih hspace, byteCount, Nat.add_assoc]

theorem scan_symbol {ch : Char} {token : Token} (h : ofSymbol? ch = some token) (offset : Nat)
    (rest : List Char) :
    scan offset (ch :: rest) = (token :: ·) <$> scan (offset + ch.utf8Size) rest := by
  rw [scan, if_neg (by simp [isSeparator_eq_false_of_ofSymbol? h])]
  simp only [h]
  cases scan (offset + ch.utf8Size) rest <;> rfl

/-- The first letter is no operator, and the run of name characters ends with the name. -/
theorem scan_name {chars rest : List Char} (h : IsName chars) (hrest : EndsName rest)
    (offset : Nat) :
    scan offset (chars ++ rest) =
      (.var (.ofList chars) :: ·) <$> scan (offset + byteCount chars) rest := by
  obtain ⟨first, tail, rfl, halpha, hv, hV, htail⟩ := h
  rw [List.cons_append, scan, if_neg (by simp [isSeparator_eq_false_of_isAlpha halpha])]
  simp only [ofSymbol?_eq_none_of_isAlpha halpha hv hV, halpha, if_true,
    takeWhile_append_of_endsName htail hrest, dropWhile_append_of_endsName htail hrest]
  cases scan (offset + byteCount (first :: tail)) rest <;> rfl

/-- A character that starts no token is a failure. -/
theorem scan_stray {ch : Char} (hseparator : isSeparator ch = false)
    (hsymbol : ofSymbol? ch = none) (halpha : ch.isAlpha = false) (offset : Nat)
    (rest : List Char) : scan offset (ch :: rest) = .error ⟨ch, offset⟩ := by
  rw [scan]
  simp [hseparator, hsymbol, halpha]

/-- Every list of characters starts with a separator, a symbol, a whole name or a character that
starts no token, or is empty. -/
theorem scan_induction {motive : List Char → Prop} (nil : motive [])
    (separator : ∀ ch rest, isSeparator ch = true → motive rest → motive (ch :: rest))
    (symbol : ∀ ch token rest, ofSymbol? ch = some token → motive rest → motive (ch :: rest))
    (name : ∀ name rest, IsName name → EndsName rest → motive rest → motive (name ++ rest))
    (stray : ∀ ch rest, isSeparator ch = false → ofSymbol? ch = none → ch.isAlpha = false →
      motive (ch :: rest)) (chars : List Char) : motive chars := by
  fun_induction scan 0 chars with
  | case1 => exact nil
  | case2 offset ch rest hseparator ih => exact separator ch rest hseparator ih
  | case3 offset ch rest hseparator token hsymbol ih => exact symbol ch token rest hsymbol ih
  | case4 offset ch rest hseparator hsymbol halpha chars =>
      rename_i ih
      have hwhole := name _ _ (isName_takeWhile hsymbol halpha rest) (endsName_dropWhile rest) ih
      rwa [List.cons_append, List.takeWhile_append_dropWhile] at hwhole
  | case5 offset ch rest hseparator hsymbol halpha =>
      exact stray ch rest (by simpa using hseparator) hsymbol (by simpa using halpha)

end BooleanSteps.Token
