import BooleanSteps.Proofs.ReadFormulas
import BooleanSteps.Proofs.Refusals

/-!
# Printing and reading again

The printed text of a formula that can be written is read as the flat form of the formula,
or refused because it opens a level too many. Which of the two happens is decided by the
levels of the formula. A text with no more parentheses, negations and `^` than there are
levels is always read.
-/

namespace BooleanSteps

/-! ## Tokens that open levels -/

/-- The level is higher behind the token. -/
def Token.opens : Token → Bool
  | openParen | not | xor => true
  | _ => false

/-- The number of opening parentheses, negations and `^` among the tokens. -/
def openings (tokens : List Token) : Nat := tokens.countP Token.opens

@[simp] theorem openings_nil : openings [] = 0 := rfl

@[simp] theorem openings_append (tokens others : List Token) :
    openings (tokens ++ others) = openings tokens + openings others := List.countP_append

@[simp] theorem openings_cons (token : Token) (tokens : List Token) :
    openings (token :: tokens) = openings tokens + if token.opens then 1 else 0 :=
  List.countP_cons

theorem openings_le_joinTokens {c : Connective} {part : List Token} {parts : List (List Token)}
    (h : part ∈ parts) : openings part ≤ openings (c.joinTokens parts) := by
  have hintercalate : openings part ≤ openings ([Token.connective c].intercalate parts) := by
    induction parts with
    | nil => exact absurd h List.not_mem_nil
    | cons first parts ih =>
        cases parts with
        | nil => exact Nat.le_of_eq (by rw [List.mem_singleton.mp h, List.intercalate_singleton])
        | cons second parts =>
            simp only [List.intercalate_cons_cons, openings_append]
            rcases List.mem_cons.mp h with rfl | h
            · omega
            · have hothers := ih h
              omega
  cases parts with
  | nil => exact absurd h List.not_mem_nil
  | cons first parts => exact hintercalate

namespace Formula

theorem encloseLevels_le_openings {f : Formula} (required : Nat)
    (h : f.levels ≤ openings f.tokens) :
    f.encloseLevels required f.levels ≤ openings (f.encloseTokens required f.tokens) := by
  unfold encloseLevels encloseTokens
  split
  next => simpa [Token.opens] using h
  next => exact h

/-- Every level is opened by a token of its own. -/
theorem levels_le_openings (f : Formula) : f.levels ≤ openings f.tokens := by
  induction f with
  | const value | var name => exact Nat.zero_le _
  | not f ih =>
      have hoperand := encloseLevels_le_openings 4 ih
      rw [levels, tokens, openings_cons]
      exact Nat.add_le_add_right hoperand 1
  | nary c fs ih =>
      rw [levels, levelsAll_le_iff, tokens_nary]
      intro f hf
      exact Nat.le_trans (encloseLevels_le_openings c.precedence (ih f hf))
        (openings_le_joinTokens (List.mem_map_of_mem hf))
  | xor l r ihl ihr =>
      have hleft := encloseLevels_le_openings 2 ihl
      have hright := encloseLevels_le_openings 3 ihr
      have hlinks : l.links ≤ l.encloseLevels 2 l.levels :=
        Nat.le_trans l.links_le_levels (le_encloseLevels 2 l l.levels)
      rw [levels, tokens, openings_append, openings_cons, Token.opens, if_pos rfl]
      omega

/-! ## Reading the printed text -/

variable {f : Formula}

theorem takeWhile_tokens (hf : f.IsWritable) :
    (f.tokens ++ [Token.endOfInput]).takeWhile (· ≠ .endOfInput) = f.tokens := by
  obtain ⟨spelled, heq, hspelled⟩ := exists_spells_of_tokenize (tokenize_render hf)
  rw [List.append_cancel_right heq]
  exact takeWhile_spelled hspelled

theorem parse_render_of_le (hf : f.IsWritable) (h : f.levels ≤ maxDepth) :
    parse f.render = .ok f.flat := by
  have hlevel : 0 + f.levels ≤ maxDepth := by omega
  have hread : Reading.read maxDepth 0 (.awaiting .start) (f.tokens ++ [.endOfInput]) =
      .ok f.flat := by
    rw [Reading.read_start_eq_ok_iff, takeWhile_tokens hf]
    exact derives_tokens f hlevel
  rw [parse_eq_of_tokenize (tokenize_render hf), hread]
  rfl

theorem exists_parse_render_eq_tooDeep (hf : f.IsWritable) (h : maxDepth < f.levels) :
    ∃ found position, parse f.render = .error (.grammatical ⟨.tooDeep, found, position⟩) := by
  have hfeed := Reading.feedAll_tokens_of_lt h
  rw [← takeWhile_tokens hf] at hfeed
  obtain ⟨found, position, hread⟩ := Reading.exists_read_eq_error 0 hfeed
  refine ⟨found, position, ?_⟩
  rw [parse_eq_of_tokenize (tokenize_render hf), hread]
  rfl

/-- The text of a formula that can be written is read as its flat form or opens a level too
many, and the latter only if more tokens that open levels are printed than there are
levels. Formulas that are flat are read as they are. -/
theorem parse_render (hf : f.IsWritable) :
    ∃ tokens, Token.tokenize f.render = .ok tokens ∧
      (parse f.render = .ok f.flat ∨
        ∃ found position, parse f.render = .error (.grammatical ⟨.tooDeep, found, position⟩)) ∧
      (openings tokens ≤ maxDepth → parse f.render = .ok f.flat) ∧
      (f.IsFlat → f.flat = f) := by
  refine ⟨_, tokenize_render hf, ?_, ?_, IsFlat.flat_eq⟩
  · rcases Nat.lt_or_ge maxDepth f.levels with hlt | hge
    · exact .inr (exists_parse_render_eq_tooDeep hf hlt)
    · exact .inl (parse_render_of_le hf hge)
  · intro hopenings
    have hlevels := f.levels_le_openings
    rw [openings_append] at hopenings
    exact parse_render_of_le hf (by omega)

/-- An AND of one operand is printed as its operand and an OR of none as `0`, both in the
parentheses that the node needs. -/
theorem parse_render_degenerate :
    IsWritable (.not (.nary .and [.xor (.var "A") (.xor (.var "B") (.nary .or []))])) ∧
      parse "~((A ^ (B ^ (0))))" =
        .ok (.not (.xor (.var "A") (.xor (.var "B") (.const false)))) := by
  let f : Formula := .not (.nary .and [.xor (.var "A") (.xor (.var "B") (.nary .or []))])
  have hf : f.IsWritable := by decide
  have hrender : f.render = "~((A ^ (B ^ (0))))" := by decide
  obtain ⟨tokens, htokenize, -, hparse, -⟩ := parse_render hf
  have hopenings : openings tokens ≤ maxDepth := by
    rw [tokenize_render hf] at htokenize
    cases htokenize
    decide
  rw [← hrender]
  exact ⟨hf, hparse hopenings⟩

/-! ## Long chains -/

/-- The formula with `A` joined to it by `^` a number of times. -/
def linked : Nat → Formula → Formula
  | 0, f => f
  | n + 1, f => .xor (linked n f) (.var "A")

theorem links_linked (n : Nat) (f : Formula) : (linked n f).links = f.links + n := by
  induction n with
  | zero => rfl
  | succ n ih => rw [linked, links, ih, Nat.add_assoc]

theorem encloseLevels_linked (n : Nat) (f : Formula) :
    (linked n f).encloseLevels 2 (linked n f).levels =
      max (f.encloseLevels 2 f.levels) (f.links + n) := by
  induction n with
  | zero =>
      have hlinks : f.links ≤ f.encloseLevels 2 f.levels :=
        Nat.le_trans f.links_le_levels (le_encloseLevels 2 f f.levels)
      exact (Nat.max_eq_left hlinks).symm
  | succ n ih =>
      have hroot : (linked (n + 1) f).encloseLevels 2 (linked (n + 1) f).levels =
          (linked (n + 1) f).levels := rfl
      have hvar : encloseLevels 3 (.var "A") (levels (.var "A")) = 0 := rfl
      rw [hroot, linked, levels, ih, links_linked, hvar]
      omega

theorem flat_linked (n : Nat) (f : Formula) : (linked n f).flat = linked n f.flat := by
  induction n with
  | zero => rfl
  | succ n ih => rw [linked, flat_xor, ih, flat_var, linked]

theorem IsWritable.linked (n : Nat) (hf : f.IsWritable) : (linked n f).IsWritable := by
  induction n with
  | zero => exact hf
  | succ n ih => exact isWritable_xor.mpr ⟨ih, by decide⟩

theorem join_replicate_succ (n : Nat) (text : String) :
    String.join (List.replicate (n + 1) text) = String.join (List.replicate n text) ++ text := by
  rw [List.replicate_succ', String.join, List.foldl_append]
  rfl

theorem render_linked (n : Nat) (h : 2 ≤ f.precedence) :
    (linked n f).render = f.render ++ String.join (List.replicate n " ^ A") := by
  have hprecedence : ∀ n, 2 ≤ (Formula.linked n f).precedence := by
    intro n
    cases n with
    | zero => exact h
    | succ n => exact Nat.le_refl 2
  induction n with
  | zero => simp [linked, String.join]
  | succ n ih =>
      have hplain : ¬(Formula.linked n f).precedence < 2 := Nat.not_lt.mpr (hprecedence n)
      rw [linked, render_xor, enclose, if_neg hplain, ih, join_replicate_succ, String.append_assoc,
        String.append_assoc]
      rfl

theorem levels_chain (n : Nat) : (linked (n + 1) (.var "A")).levels = n + 1 := by
  have hlevels : (linked (n + 1) (.var "A")).levels = max 0 (0 + (n + 1)) :=
    encloseLevels_linked (n + 1) (.var "A")
  omega

/-- In parentheses, a chain takes one level more than it has links. -/
theorem levels_grouped (n : Nat) :
    levels (.xor (.nary .and [linked (n + 1) (.var "A")]) (.not (.var "A"))) = n + 2 := by
  have hgroup : levels (.xor (.nary .and [linked (n + 1) (.var "A")]) (.not (.var "A"))) =
      max (max ((linked (n + 1) (.var "A")).levels + 1) 0) 2 := rfl
  rw [hgroup, levels_chain]
  omega

/-- Without them, what follows a chain stands behind all its links. -/
theorem levels_ungrouped (n : Nat) :
    levels (.xor (linked (n + 1) (.var "A")) (.not (.var "A"))) = n + 3 := by
  have hlinks : (linked (n + 1) (.var "A")).links = 0 + (n + 1) := links_linked (n + 1) (.var "A")
  have hchain : levels (.xor (linked (n + 1) (.var "A")) (.not (.var "A"))) =
      max (linked (n + 1) (.var "A")).levels ((linked (n + 1) (.var "A")).links + 1 + 1) := rfl
  rw [hchain, levels_chain, hlinks]
  omega

theorem render_grouped (n : Nat) :
    render (.xor (.nary .and [linked (n + 1) (.var "A")]) (.not (.var "A"))) =
      "(A" ++ String.join (List.replicate (n + 1) " ^ A") ++ ") ^ ~A" := by
  have hchain : (linked (n + 1) (.var "A")).render =
      "A" ++ String.join (List.replicate (n + 1) " ^ A") := render_linked (n + 1) (by decide)
  have hgroup : render (.xor (.nary .and [linked (n + 1) (.var "A")]) (.not (.var "A"))) =
      "(" ++ (linked (n + 1) (.var "A")).render ++ ")" ++ " ^ " ++ "~A" := rfl
  rw [hgroup, hchain]
  simp [← String.toList_inj]

/-- What was read can be printed and read again exactly where its own levels are within the
limit, and where they are not, this is the reason. The levels of the text it was read from
may be fewer: parentheses that are not printed again hide the `^` between them from what
follows. -/
theorem parse_render_parsed {text : String} (h : parse text = .ok f) :
    (parse f.render = .ok f ↔ f.levels ≤ maxDepth) ∧
      (parse f.render = .ok f ∨
        ∃ found position, parse f.render = .error (.grammatical ⟨.tooDeep, found, position⟩)) := by
  have hf := isWritable_of_parse h
  have hflat := (isFlat_of_parse h).flat_eq
  rcases Nat.lt_or_ge maxDepth f.levels with hlt | hge
  · obtain ⟨found, position, herror⟩ := exists_parse_render_eq_tooDeep hf hlt
    refine ⟨?_, .inr ⟨found, position, herror⟩⟩
    rw [herror]
    exact iff_of_false (by simp) (Nat.not_le.mpr hlt)
  · have hparse := parse_render_of_le hf hge
    rw [hflat] at hparse
    exact ⟨iff_of_true hparse hge, .inl hparse⟩

theorem parse_render_parsed_chain :
    parse "(A ^ B) ^ ~A" = .ok (.xor (.xor (.var "A") (.var "B")) (.not (.var "A"))) ∧
      parse (render (.xor (.xor (.var "A") (.var "B")) (.not (.var "A")))) =
        .ok (.xor (.xor (.var "A") (.var "B")) (.not (.var "A"))) := by
  let f : Formula := .xor (.nary .and [.xor (.var "A") (.var "B")]) (.not (.var "A"))
  have hparse : parse f.render = .ok f.flat := parse_render_of_le (by decide) (by decide)
  have hrender : f.render = "(A ^ B) ^ ~A" := by decide
  have hflat : f.flat = .xor (.xor (.var "A") (.var "B")) (.not (.var "A")) := by decide
  rw [hrender, hflat] at hparse
  exact ⟨hparse, (parse_render_parsed hparse).1.mpr (by decide)⟩

/-- Without the parentheses, the negation stands behind the 256 `^` of one chain. -/
theorem parse_render_parsed_long_chain :
    parse ("(A" ++ String.join (List.replicate 255 " ^ A") ++ ") ^ ~A") =
        .ok (.xor (linked 255 (.var "A")) (.not (.var "A"))) ∧
      ∃ found position, parse (render (.xor (linked 255 (.var "A")) (.not (.var "A")))) =
        .error (.grammatical ⟨.tooDeep, found, position⟩) := by
  have hvar : IsWritable (.var "A") := by decide
  constructor
  · -- An AND of one operand is printed with the parentheses that the chain would do without.
    let f : Formula := .xor (.nary .and [linked 255 (.var "A")]) (.not (.var "A"))
    have hf : f.IsWritable := by
      simp only [f, isWritable_xor, isWritable_nary, List.forall_mem_singleton, isWritable_not]
      exact ⟨hvar.linked 255, hvar⟩
    have hle : f.levels ≤ maxDepth := by
      rw [levels_grouped 254]
      decide
    have hrender : f.render = "(A" ++ String.join (List.replicate 255 " ^ A") ++ ") ^ ~A" := by
      rw [render_grouped 254]
    have hflat : f.flat = .xor (linked 255 (.var "A")) (.not (.var "A")) := by
      simp only [f, flat_xor, flat_nary, List.map_singleton, List.flatMap_singleton, flat_linked]
      rfl
    have hparse := parse_render_of_le hf hle
    rwa [hrender, hflat] at hparse
  · have hf : IsWritable (.xor (linked 255 (.var "A")) (.not (.var "A"))) :=
      isWritable_xor.mpr ⟨hvar.linked 255, hvar⟩
    refine exists_parse_render_eq_tooDeep hf ?_
    rw [levels_ungrouped 254]
    decide

end Formula

end BooleanSteps
