import BooleanSteps.Proofs.Cuts
import BooleanSteps.Proofs.FlatForm
import BooleanSteps.Proofs.GrammarSoundness
import BooleanSteps.Proofs.Occurrences
import BooleanSteps.Proofs.Phrases

/-!
# Formulas that are read

A formula that is read from a text is flat, since the operands of a chain are taken in, and
its variables are the names in the text, so it can be written.
-/

namespace BooleanSteps

/-- The name that the token is, if it is one. -/
def Token.name? : Token → Option String
  | var name => some name
  | _ => none

theorem filterMap_name?_separated {separator : Token} (h : separator.name? = none)
    (phrases : List Phrase) : (separated separator phrases).filterMap Token.name? =
      phrases.flatMap fun p => p.1.filterMap Token.name? := by
  induction phrases with
  | nil => rfl
  | cons p phrases ih =>
      cases phrases with
      | nil => rw [separated_singleton, List.flatMap_singleton]
      | cons q phrases =>
          rw [separated_cons_cons, List.filterMap_append, List.filterMap_cons_none h, ih]
          rfl

namespace Formula

theorem names_join (c : Connective) (fs : List Formula) :
    names (join c fs) = fs.flatMap names := by
  match fs with
  | [] => rfl
  | [f] => exact (List.flatMap_singleton names f).symm
  | f :: g :: fs =>
      rw [join, names_nary, List.flatMap_assoc, funext (flatMap_names_splice c)]
      simp

theorem names_foldl_xor (f : Formula) (phrases : List Phrase) :
    names (phrases.foldl (fun g p => .xor g p.2) f) =
      f.names ++ phrases.flatMap fun p => p.2.names := by
  induction phrases generalizing f with
  | nil => simp
  | cons p phrases ih => simp [ih, names]

theorem isFlat_foldl_xor {f : Formula} {phrases : List Phrase} (hf : f.IsFlat)
    (h : ∀ p ∈ phrases, p.2.IsFlat) : IsFlat (phrases.foldl (fun g p => .xor g p.2) f) := by
  induction phrases generalizing f with
  | nil => exact hf
  | cons p phrases ih =>
      obtain ⟨hp, hphrases⟩ := List.forall_mem_cons.mp h
      exact ih (isFlat_xor.mpr ⟨hf, hp⟩) hphrases

theorem join_isFlat {c : Connective} {phrases : List Phrase} (hne : phrases ≠ [])
    (h : ∀ p ∈ phrases, p.2.IsFlat) : (join c (phrases.map Prod.snd)).IsFlat := by
  have hfs : ∀ f ∈ phrases.map Prod.snd, f.IsFlat := List.forall_mem_map.mpr h
  rw [join_eq_collapse (by simpa using hne) hfs]
  exact collapse_isFlat fun g hg => of_mem_flatMap_splice hfs hg

end Formula

variable {limit level : Nat} {category : Category} {tokens : List Token} {f : Formula}

theorem Derives.isFlat (h : Derives limit category level tokens f) : f.IsFlat := by
  induction h with
  | var level name => exact Formula.isFlat_var name
  | const level value => exact Formula.isFlat_const value
  | paren _ _ ih | primary _ ih => exact ih
  | not _ _ ih => exact Formula.isFlat_not.mpr ih
  | conjunction _ hne _ ih | disjunction _ hne _ ih => exact Formula.join_isFlat hne ih
  | exclusive first others _ _ ih =>
      obtain ⟨hfirst, hothers⟩ := List.forall_mem_cons.mp
        (List.forall_mem_iff_forall_getElem.mpr ih : ∀ p ∈ first :: others, p.2.IsFlat)
      exact Formula.isFlat_foldl_xor hfirst hothers

/-- The variables of the formula are the names among the tokens, in their order. -/
theorem Derives.names_eq (h : Derives limit category level tokens f) :
    f.names = tokens.filterMap Token.name? := by
  induction h with
  | var level name => rfl
  | const level value => rfl
  | paren _ _ ih => simp [ih, List.filterMap_cons, Token.name?]
  | primary _ ih => exact ih
  | not _ _ ih =>
      rw [Formula.names, ih]
      rfl
  | conjunction phrases _ _ ih | disjunction phrases _ _ ih =>
      rw [Formula.names_join, filterMap_name?_separated rfl, List.flatMap_map, List.flatMap_def,
        List.map_congr_left ih, List.flatMap_def]
  | exclusive first others _ _ ih =>
      have hnames : ∀ p ∈ first :: others, p.2.names = p.1.filterMap Token.name? :=
        List.forall_mem_iff_forall_getElem.mpr ih
      obtain ⟨hfirst, hothers⟩ := List.forall_mem_cons.mp hnames
      rw [Formula.names_foldl_xor, filterMap_name?_separated rfl, List.flatMap_cons, hfirst,
        List.flatMap_def, List.map_congr_left hothers, List.flatMap_def]

theorem takeWhile_spelled {spelled : List Token}
    (h : ∀ token ∈ spelled, ∃ spelling, Token.Spells spelling token) :
    (spelled ++ [Token.endOfInput]).takeWhile (· ≠ .endOfInput) = spelled := by
  rw [List.takeWhile_append_of_pos, List.takeWhile_cons_of_neg (by decide), List.append_nil]
  intro token htoken
  obtain ⟨spelling, hspells⟩ := h token htoken
  simpa using hspells.ne_endOfInput

namespace Formula

theorem parse_eq_of_tokenize {text : String} (h : Token.tokenize text = .ok tokens) :
    parse text = (Reading.read maxDepth 0 (.awaiting .start) tokens).mapError .grammatical := by
  rw [parse, h]
  rfl

/-- A formula is read from a text if the grammar derives it from the tokens of the text. -/
theorem exists_tokenize_of_parse {text : String} (h : parse text = .ok f) :
    ∃ tokens, Token.tokenize text = .ok (tokens ++ [.endOfInput]) ∧
      Derives maxDepth .disjunction 0 tokens f := by
  cases htokenize : Token.tokenize text with
  | error e =>
      rw [parse, htokenize] at h
      cases h
  | ok tokens =>
      rw [parse_eq_of_tokenize htokenize] at h
      obtain ⟨spelled, rfl, hspelled⟩ := exists_spells_of_tokenize htokenize
      cases hread : Reading.read maxDepth 0 (.awaiting .start) (spelled ++ [.endOfInput]) with
      | error e =>
          rw [hread] at h
          cases h
      | ok g =>
          rw [hread] at h
          cases h
          have hderives := Reading.read_start_eq_ok_iff.mp hread
          rw [takeWhile_spelled hspelled] at hderives
          exact ⟨spelled, rfl, hderives⟩

/-- Every token that the formula is derived from is spelled in the text. -/
theorem exists_derives_of_parse {text : String} (h : parse text = .ok f) :
    ∃ tokens, (∀ token ∈ tokens, ∃ spelling, Token.Spells spelling token) ∧
      Derives maxDepth .disjunction 0 tokens f := by
  obtain ⟨tokens, htokenize, hderives⟩ := exists_tokenize_of_parse h
  obtain ⟨spelled, heq, hspelled⟩ := exists_spells_of_tokenize htokenize
  rw [← List.append_cancel_right heq] at hspelled
  exact ⟨tokens, hspelled, hderives⟩

theorem isFlat_of_parse {text : String} (h : parse text = .ok f) : f.IsFlat := by
  obtain ⟨tokens, -, hderives⟩ := exists_derives_of_parse h
  exact hderives.isFlat

theorem isWritable_of_parse {text : String} (h : parse text = .ok f) : f.IsWritable := by
  obtain ⟨tokens, hspelled, hderives⟩ := exists_derives_of_parse h
  intro name hname
  rw [hderives.names_eq] at hname
  obtain ⟨token, htoken, hsome⟩ := List.mem_filterMap.mp hname
  obtain ⟨spelling, hspells⟩ := hspelled token htoken
  cases token <;> cases hsome
  exact hspells.isName

end Formula

end BooleanSteps
