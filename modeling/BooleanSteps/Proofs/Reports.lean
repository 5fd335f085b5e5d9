import Mathlib.Data.List.DropRight
import Mathlib.Data.List.Induction
import BooleanSteps.CommandLine.Run
import BooleanSteps.Proofs.Tidying

/-!
# A report reproduces itself

A report holds the text without the blanks at its ends and the tidy text, and neither is the text
that was simplified. Trimming takes blank characters away that tidying does not look at, and a tidy
text has none at its ends. So all three texts have one tidy form, and it is the tidy form that is
read and simplified.
-/

namespace BooleanSteps

namespace Text

variable {chars word rest : List Char} {words : List (List Char)}

/-! ## Trimming -/

/-- No blank character stands at an end. -/
structure IsTrimmed (chars : List Char) : Prop where
  head : ∀ ch ∈ chars.head?, isBlank ch = false
  last : ∀ ch ∈ chars.getLast?, isBlank ch = false

theorem isTrimmed_nil : IsTrimmed [] := ⟨by simp, by simp⟩

theorem IsWord.isTrimmed (h : IsWord word) : IsTrimmed word where
  head ch hch := h.not_blank ch (List.mem_of_mem_head? hch)
  last ch hch := h.not_blank ch (List.mem_of_mem_getLast? hch)

theorem IsWord.append_isTrimmed (hword : IsWord word) (hne : rest ≠ []) (hrest : IsTrimmed rest)
    (between : List Char) : IsTrimmed (word ++ (between ++ rest)) where
  head ch hch := by
    rw [List.head?_append_of_ne_nil _ hword.ne_nil] at hch
    exact hword.isTrimmed.head ch hch
  last ch hch := by
    rw [← List.append_assoc, List.getLast?_append_of_ne_nil _ hne] at hch
    exact hrest.last ch hch

theorem trimChars_eq (chars : List Char) :
    trimChars chars = (chars.dropWhile isBlank).rdropWhile isBlank := rfl

theorem trimChars_isTrimmed (chars : List Char) : IsTrimmed (trimChars chars) where
  head ch hch := by
    obtain ⟨dropped, heq⟩ := List.rdropWhile_prefix isBlank (chars.dropWhile isBlank)
    have hne : trimChars chars ≠ [] := List.ne_nil_of_mem (List.mem_of_mem_head? hch)
    rw [← List.head?_append_of_ne_nil (trimChars chars) hne, trimChars_eq, heq] at hch
    have hnot := List.head?_dropWhile_not isBlank chars
    rw [Option.mem_def.mp hch] at hnot
    simpa using hnot
  last ch hch := by
    have hne : trimChars chars ≠ [] := List.ne_nil_of_mem (List.mem_of_mem_getLast? hch)
    have hnot := List.rdropWhile_last_not isBlank (chars.dropWhile isBlank) hne
    rw [List.getLast?_eq_some_getLast hne, Option.mem_some] at hch
    rw [← hch]
    simpa [trimChars_eq] using hnot

theorem IsTrimmed.trimChars_eq_self (h : IsTrimmed chars) : trimChars chars = chars := by
  have hfront : chars.dropWhile isBlank = chars := by
    cases chars with
    | nil => rfl
    | cons ch rest => exact List.dropWhile_cons_of_neg (by simpa using h.head ch rfl)
  rw [trimChars_eq, hfront, List.rdropWhile_eq_self_iff]
  intro hne
  simpa using h.last _ (List.getLast_mem_getLast? hne)

/-! ## Trimming keeps the words -/

theorem wordsOf_dropWhile (chars : List Char) :
    wordsOf (chars.dropWhile isBlank) = wordsOf chars := by
  induction chars with
  | nil => rfl
  | cons ch rest ih =>
      by_cases hch : isBlank ch = true
      · rw [List.dropWhile_cons_of_pos hch, wordsOf_blank hch, ih]
      · rw [List.dropWhile_cons_of_neg hch]

theorem wordsOf_append_blank {ch : Char} (hch : isBlank ch = true) (chars : List Char) :
    wordsOf (chars ++ [ch]) = wordsOf chars := by
  induction chars using words_induction with
  | nil => rw [List.nil_append, wordsOf_blank hch]
  | blank other rest hother ih =>
      rw [List.cons_append, wordsOf_blank hother, ih, wordsOf_blank hother]
  | word word rest hword hrest ih =>
      have hends : EndsWord (rest ++ [ch]) := by
        cases rest with
        | nil => exact endsWord_cons hch []
        | cons other rest => exact endsWord_cons (hrest other rfl) _
      rw [List.append_assoc, wordsOf_word hword hends, ih, wordsOf_word hword hrest]

theorem wordsOf_rdropWhile (chars : List Char) :
    wordsOf (chars.rdropWhile isBlank) = wordsOf chars := by
  induction chars using List.reverseRecOn with
  | nil => rfl
  | append_singleton chars ch ih =>
      by_cases hch : isBlank ch = true
      · rw [List.rdropWhile_concat_pos _ _ _ hch, ih, wordsOf_append_blank hch]
      · rw [List.rdropWhile_concat_neg _ _ _ hch]

theorem squeeze_trimChars (chars : List Char) : squeeze (trimChars chars) = squeeze chars := by
  rw [squeeze, trimChars_eq, wordsOf_rdropWhile, wordsOf_dropWhile, squeeze]

/-- Words with a space between them begin and end with a word. -/
theorem intercalate_isTrimmed (h : ∀ word ∈ words, IsWord word) :
    IsTrimmed ([' '].intercalate words) := by
  induction words with
  | nil => exact isTrimmed_nil
  | cons word words ih =>
      obtain ⟨hword, hwords⟩ := List.forall_mem_cons.mp h
      cases words with
      | nil =>
          rw [List.intercalate_singleton]
          exact hword.isTrimmed
      | cons next words =>
          have hnext : next ≠ [] := (hwords next List.mem_cons_self).ne_nil
          have hne : [' '].intercalate (next :: words) ≠ [] := by
            cases words <;> simp [List.intercalate_cons_cons, hnext]
          rw [List.intercalate_cons_cons, List.append_assoc]
          exact hword.append_isTrimmed hne (ih hwords) [' ']

theorem trimChars_squeeze (chars : List Char) : trimChars (squeeze chars) = squeeze chars :=
  (intercalate_isTrimmed fun _ => isWord_of_mem_wordsOf).trimChars_eq_self

theorem trim_trim (text : String) : trim (trim text) = trim text := by
  rw [trim, trim, String.toList_ofList, (trimChars_isTrimmed text.toList).trimChars_eq_self]

end Text

/-! ## Trimming and tidying -/

/-- Neither a middle dot nor an ampersand is blank. -/
theorem dropWhile_map_replaceDot (chars : List Char) :
    (chars.map replaceDot).dropWhile Text.isBlank =
      (chars.dropWhile Text.isBlank).map replaceDot := by
  have hblank : Text.isBlank ∘ replaceDot = Text.isBlank := funext (Token.apply_replaceDot rfl)
  rw [List.dropWhile_map, hblank]

theorem trimChars_map_replaceDot (chars : List Char) :
    Text.trimChars (chars.map replaceDot) = (Text.trimChars chars).map replaceDot := by
  unfold Text.trimChars
  rw [dropWhile_map_replaceDot, ← List.map_reverse, dropWhile_map_replaceDot, List.map_reverse]

theorem tidy_trim (text : String) : tidy (Text.trim text) = tidy text := by
  apply String.toList_injective
  rw [toList_tidy, toList_tidy, Text.trim, String.toList_ofList, ← trimChars_map_replaceDot,
    Text.squeeze_trimChars]

theorem trim_tidy (text : String) : Text.trim (tidy text) = tidy text := by
  rw [Text.trim, toList_tidy, Text.trimChars_squeeze, ← toList_tidy, String.ofList_toList]

/-! ## Reports -/

/-- Texts with one tidy form are simplified alike. -/
theorem simplifyText_congr {text other : String} (h : tidy other = tidy text)
    (given : Option Nat) : simplifyText other given = simplifyText text given := by
  rw [simplifyText, simplifyText, h]

/-- What is simplified is the formula that the tidy form of the text is written for. -/
theorem simplifyText_of_parse {text : String} {f : Formula} (h : Formula.parse (tidy text) = .ok f)
    (given : Option Nat) :
    simplifyText text given = (f.simplify given).mapError .unsettled := by
  rw [simplifyText, h]
  rfl

theorem exists_of_simplifyText_eq_ok {text : String} {given : Option Nat} {s : Simplification}
    (h : simplifyText text given = .ok s) :
    ∃ f, Formula.parse (tidy text) = .ok f ∧ f.simplify given = .ok s := by
  cases hread : Formula.parse (tidy text) with
  | error e =>
      rw [simplifyText, hread] at h
      cases h
  | ok f =>
      rw [simplifyText_of_parse hread] at h
      exact ⟨f, rfl, Reading.mapError_eq_ok_iff.mp h⟩

namespace Report

open Token

theorem ofText_of_simplify {text : String} {f : Formula} {given : Option Nat} {s : Simplification}
    (hread : Formula.parse (tidy text) = .ok f) (h : f.simplify given = .ok s) :
    ofText text given = .ok (ofSimplification text s) := by
  rw [ofText, simplifyText_of_parse hread, h]
  rfl

theorem exists_of_ofText_eq_ok {text : String} {given : Option Nat} {r : Report}
    (h : ofText text given = .ok r) :
    ∃ s, simplifyText text given = .ok s ∧ r = ofSimplification text s := by
  rw [ofText] at h
  cases hresult : simplifyText text given with
  | error e =>
      rw [hresult] at h
      cases h
  | ok s =>
      rw [hresult] at h
      cases h
      exact ⟨s, rfl, rfl⟩

/-- Where a text has a report, a text with the same tidy form has the same report, but for what
was given. -/
theorem ofText_of_tidy_eq {text other : String} {given : Option Nat} {r : Report}
    (htidy : tidy other = tidy text) (h : ofText text given = .ok r) :
    ofText other given = .ok { r with given := Text.trim other } := by
  obtain ⟨s, hresult, rfl⟩ := exists_of_ofText_eq_ok h
  rw [ofText, simplifyText_congr htidy, hresult, Except.map, ofSimplification, ofSimplification,
    htidy]

/-- The tidy form of the text that a report says was given is the one that it holds. Either of
these two texts has the same report again, but for what was given. -/
theorem ofText_given_and_normalized {text : String} {given : Option Nat} {r : Report}
    (h : ofText text given = .ok r) :
    tidy r.given = r.normalized ∧ ofText r.given given = .ok r ∧
      ofText r.normalized given = .ok { r with given := r.normalized } := by
  have hgiven := ofText_of_tidy_eq (tidy_trim text) h
  have hnormalized := ofText_of_tidy_eq (tidy_tidy text) h
  rw [Text.trim_trim] at hgiven
  rw [trim_tidy] at hnormalized
  obtain ⟨s, -, rfl⟩ := exists_of_ofText_eq_ok h
  exact ⟨tidy_trim text, hgiven, hnormalized⟩

theorem ofText_given_and_normalized_padded_dots :
    let r : Report := ⟨"a·b |\u00a0a", "a&b | a", "a", [⟨.absorption .or, "a | a & b", "a"⟩]⟩
    ofText "\u3000a·b |\u00a0a\n" (some 1) = .ok r ∧ tidy "a·b |\u00a0a" = "a&b | a" ∧
      ofText "a·b |\u00a0a" (some 1) = .ok r ∧
      ofText "a&b | a" (some 1) = .ok { r with given := "a&b | a" } := by
  intro r
  have htokens : tokenize "a&b | a" =
      .ok [.var "a", .connective .and, .var "b", .connective .or, .var "a", .endOfInput] := by
    change scan 0 (['a'] ++ '&' :: (['b'] ++ ' ' :: '|' :: ' ' :: (['a'] ++ []))) = _
    rw [scan_name (by decide) (endsName_cons rfl _), scan_symbol rfl,
      scan_name (by decide) (endsName_cons rfl _), scan_separator rfl, scan_symbol rfl,
      scan_separator rfl, scan_name (by decide) endsName_nil, scan_nil]
    rfl
  have hread : Formula.parse "a&b | a" =
      .ok (.nary .or [.nary .and [.var "a", .var "b"], .var "a"]) := by
    rw [Formula.parse_eq_of_tokenize htokens]
    rfl
  have hresult : (Formula.nary .or [.nary .and [.var "a", .var "b"], .var "a"]).simplify (some 1) =
      .ok ⟨.var "a", r.steps⟩ := by cbv
  have htidy : tidy "\u3000a·b |\u00a0a\n" = "a&b | a" := by decide +kernel
  have htrim : Text.trim "\u3000a·b |\u00a0a\n" = "a·b |\u00a0a" := by decide +kernel
  have hreport : ofText "\u3000a·b |\u00a0a\n" (some 1) = .ok r := by
    rw [← htidy] at hread
    rw [ofText_of_simplify hread hresult, ofSimplification, htidy, htrim]
    rfl
  obtain ⟨hnormalized, hgiven, hagain⟩ := ofText_given_and_normalized hreport
  exact ⟨hreport, hnormalized, hgiven, hagain⟩

end Report

/-! ## The command line -/

namespace CommandLine

/-- The blanks at the ends of an expression make no difference to what is written for it. -/
theorem attempt_trim (o : Options) (expression : String) :
    attempt o (Text.trim expression) = attempt o expression := by
  unfold attempt resultEmissions Report.ofSimplification
  rw [tidy_trim, Text.trim_trim]

/-- Nothing can be read from an empty text. -/
theorem tidy_ne_empty_of_parse {expression : String} {f : Formula}
    (h : Formula.parse (tidy expression) = .ok f) : tidy expression ≠ "" := by
  intro hempty
  have htokens : Token.tokenize "" = .ok [.endOfInput] := Token.scan_nil 0
  have hnothing :
      Formula.parse "" = .error (.grammatical ⟨.expectedOperand, .endOfInput, 0⟩) := by
    rw [Formula.parse_eq_of_tokenize htokens]
    rfl
  rw [hempty, hnothing] at h
  cases h

theorem attempt_of_simplify {o : Options} {expression : String} {f : Formula} {s : Simplification}
    (hread : Formula.parse (tidy expression) = .ok f) (h : f.simplify o.limit = .ok s) :
    attempt o expression =
      ⟨.record ⟨.info, "boolsimp", "simplifying " ++ tidy expression⟩ ::
        (simplificationRecords f o.limit).map .record ++ resultEmissions o expression s, none⟩ := by
  simp only [attempt, if_neg (tidy_ne_empty_of_parse hread), hread, h]

/-- Where a document is asked for, it is the report that is printed, behind the records of the
log. -/
theorem attempt_of_ofText {o : Options} (ho : o.json = true) {expression : String} {r : Report}
    (h : Report.ofText expression o.limit = .ok r) :
    ∃ records : List Record,
      attempt o expression = ⟨records.map .record ++ [.document r], none⟩ := by
  obtain ⟨s, hresult, rfl⟩ := Report.exists_of_ofText_eq_ok h
  obtain ⟨f, hread, hsimplify⟩ := exists_of_simplifyText_eq_ok hresult
  refine ⟨⟨.info, "boolsimp", "simplifying " ++ tidy expression⟩ ::
    simplificationRecords f o.limit, ?_⟩
  rw [attempt_of_simplify hread hsimplify, resultEmissions, if_pos ho, List.map_cons]

end CommandLine

end BooleanSteps
