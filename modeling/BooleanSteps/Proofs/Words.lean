import BooleanSteps.Text.Blank

/-!
# Words of a text

Blank characters end a word and belong to none, so a text is read as words from the left: blank
characters are passed over, and a word goes on to the next blank character. Words with one space
between them are the words of the text that they make.
-/

namespace BooleanSteps.Text

variable {chars word rest : List Char} {words : List (List Char)}

/-- The characters are one word. -/
structure IsWord (chars : List Char) : Prop where
  ne_nil : chars ≠ []
  not_blank : ∀ ch ∈ chars, isBlank ch = false

/-- The characters do not continue a word. -/
def EndsWord (chars : List Char) : Prop := ∀ ch ∈ chars.head?, isBlank ch = true

theorem endsWord_nil : EndsWord [] := by simp [EndsWord]

theorem endsWord_cons {ch : Char} (hch : isBlank ch = true) (rest : List Char) :
    EndsWord (ch :: rest) := by
  simpa [EndsWord] using hch

/-! ## What stands in front -/

theorem wordsOf_nil : wordsOf [] = [] := by simp [wordsOf]

theorem wordsOf_blank {ch : Char} (hch : isBlank ch = true) (rest : List Char) :
    wordsOf (ch :: rest) = wordsOf rest := by
  simp [wordsOf, List.splitOnP_cons_eq_if_modifyHead, hch]

theorem wordsOf_word (hword : IsWord word) (hrest : EndsWord rest) :
    wordsOf (word ++ rest) = word :: wordsOf rest := by
  unfold wordsOf
  cases rest with
  | nil => simp [List.splitOnP_eq_singleton hword.not_blank, hword.ne_nil]
  | cons ch rest =>
      have hch : isBlank ch = true := hrest ch rfl
      rw [List.splitOnP_append_cons_of_forall_mem hword.not_blank ch hch,
        List.filter_cons_of_pos (by simpa using hword.ne_nil)]
      simp [List.splitOnP_cons_eq_if_modifyHead, hch]

/-- An induction from the left, by blank characters and words. -/
theorem words_induction {motive : List Char → Prop} (nil : motive [])
    (blank : ∀ ch rest, isBlank ch = true → motive rest → motive (ch :: rest))
    (word : ∀ word rest, IsWord word → EndsWord rest → motive rest → motive (word ++ rest))
    (chars : List Char) : motive chars := by
  generalize hn : chars.length = n
  induction n using Nat.strongRecOn generalizing chars with
  | ind n ih =>
      cases chars with
      | nil => exact nil
      | cons ch rest =>
          rw [List.length_cons] at hn
          cases hch : isBlank ch with
          | true => exact blank ch rest hch (ih rest.length (by omega) rest rfl)
          | false =>
              have hword : IsWord (ch :: rest.takeWhile fun ch => !isBlank ch) := by
                refine ⟨List.cons_ne_nil _ _, List.forall_mem_cons.mpr ⟨hch, ?_⟩⟩
                intro other hother
                simpa using List.all_eq_true.mp List.all_takeWhile other hother
              have hends : EndsWord (rest.dropWhile fun ch => !isBlank ch) := by
                intro other hother
                have hnot := List.head?_dropWhile_not (fun ch => !isBlank ch) rest
                rw [Option.mem_def.mp hother] at hnot
                simpa using hnot
              have hshorter : (rest.dropWhile fun ch => !isBlank ch).length ≤ rest.length :=
                (List.dropWhile_sublist _).length_le
              have hwhole := word _ _ hword hends (ih _ (by omega) _ rfl)
              rwa [List.cons_append, List.takeWhile_append_dropWhile] at hwhole

theorem isWord_of_mem_wordsOf (h : word ∈ wordsOf chars) : IsWord word := by
  induction chars using words_induction with
  | nil =>
      rw [wordsOf_nil] at h
      cases h
  | blank ch rest hch ih =>
      rw [wordsOf_blank hch] at h
      exact ih h
  | word first rest hfirst hrest ih =>
      rw [wordsOf_word hfirst hrest] at h
      rcases List.mem_cons.mp h with rfl | h
      · exact hfirst
      · exact ih h

/-! ## One space between words -/

theorem isBlank_space : isBlank ' ' = true := by decide

theorem wordsOf_intercalate (h : ∀ word ∈ words, IsWord word) :
    wordsOf ([' '].intercalate words) = words := by
  induction words with
  | nil => exact wordsOf_nil
  | cons word words ih =>
      obtain ⟨hword, hwords⟩ := List.forall_mem_cons.mp h
      cases words with
      | nil =>
          rw [List.intercalate_singleton, ← List.append_nil word, wordsOf_word hword endsWord_nil,
            wordsOf_nil, List.append_nil]
      | cons next words =>
          rw [List.intercalate_cons_cons, List.append_assoc, List.singleton_append,
            wordsOf_word hword (endsWord_cons isBlank_space _), wordsOf_blank isBlank_space,
            ih hwords]

/-- The words of the characters with one space between them. -/
def squeeze (chars : List Char) : List Char := [' '].intercalate (wordsOf chars)

theorem squeeze_nil : squeeze [] = [] := by
  rw [squeeze, wordsOf_nil]
  rfl

theorem squeeze_blank {ch : Char} (hch : isBlank ch = true) (rest : List Char) :
    squeeze (ch :: rest) = squeeze rest := by
  rw [squeeze, wordsOf_blank hch, squeeze]

/-- Behind a word there is a space, unless it is the last word. -/
theorem squeeze_word (hword : IsWord word) (hrest : EndsWord rest) :
    (squeeze rest = [] ∧ squeeze (word ++ rest) = word) ∨
      squeeze (word ++ rest) = word ++ ' ' :: squeeze rest := by
  unfold squeeze
  rw [wordsOf_word hword hrest]
  cases wordsOf rest with
  | nil => exact .inl ⟨rfl, List.intercalate_singleton⟩
  | cons next words =>
      rw [List.intercalate_cons_cons, List.append_assoc]
      exact .inr rfl

theorem mem_squeeze {ch : Char} (h : ch ∈ squeeze chars) : ch = ' ' ∨ ch ∈ chars := by
  induction chars using words_induction with
  | nil => exact absurd h (by simp [squeeze_nil])
  | blank other rest hother ih =>
      rw [squeeze_blank hother] at h
      exact (ih h).imp_right (List.mem_cons_of_mem _)
  | word first rest hfirst hrest ih =>
      rcases squeeze_word hfirst hrest with ⟨-, heq⟩ | heq
      · rw [heq] at h
        exact .inr (List.mem_append_left _ h)
      · rw [heq, List.mem_append, List.mem_cons] at h
        rcases h with h | h | h
        · exact .inr (List.mem_append_left _ h)
        · exact .inl h
        · exact (ih h).imp_right (List.mem_append_right _)

/-- Squeezing twice is squeezing once. -/
theorem squeeze_squeeze (chars : List Char) : squeeze (squeeze chars) = squeeze chars := by
  unfold squeeze
  rw [wordsOf_intercalate fun _ => isWord_of_mem_wordsOf]

end BooleanSteps.Text
