import BooleanSteps.Proofs.LexicalGrammar
import BooleanSteps.Proofs.RoundTrip

/-!
# The fewest parentheses

No text that is read as a formula has fewer parentheses than the printed one. Where a phrase
of a category stands, the formula it is written for is printed with at most as many
parentheses as the phrase has: an operand that the printer encloses binds less tightly than
its place requires, and the grammar has no phrase for it there but one in parentheses. Chains
that take in the operands of an operand need none for it, so taking in saves parentheses and
never costs any.
-/

namespace BooleanSteps

/-! ## Opening parentheses -/

/-- The number of opening parentheses among the tokens. -/
def parentheses (tokens : List Token) : Nat := tokens.count .openParen

@[simp] theorem parentheses_nil : parentheses [] = 0 := rfl

@[simp] theorem parentheses_append (tokens others : List Token) :
    parentheses (tokens ++ others) = parentheses tokens + parentheses others :=
  List.count_append

theorem parentheses_cons_of_ne {token : Token} (h : token ≠ .openParen) (tokens : List Token) :
    parentheses (token :: tokens) = parentheses tokens := List.count_cons_of_ne h

theorem parentheses_group (tokens : List Token) :
    parentheses (.openParen :: tokens ++ [.closeParen]) = parentheses tokens + 1 := by
  simp [parentheses]

theorem parentheses_flatMap_le {α : Type} {first second : α → List Token} {parts : List α}
    (h : ∀ part ∈ parts, parentheses (first part) ≤ parentheses (second part)) :
    parentheses (parts.flatMap first) ≤ parentheses (parts.flatMap second) := by
  induction parts with
  | nil => exact Nat.le_refl _
  | cons part parts ih =>
      obtain ⟨hpart, hparts⟩ := List.forall_mem_cons.mp h
      rw [List.flatMap_cons, List.flatMap_cons, parentheses_append, parentheses_append]
      exact Nat.add_le_add hpart (ih hparts)

/-- Separators are no parentheses. -/
theorem parentheses_intercalate {separator : Token} (h : separator ≠ .openParen)
    (parts : List (List Token)) :
    parentheses ([separator].intercalate parts) = parentheses parts.flatten := by
  induction parts with
  | nil => rfl
  | cons part parts ih =>
      cases parts with
      | nil => simp
      | cons second parts =>
          rw [List.intercalate_cons_cons, List.flatten_cons, parentheses_append,
            parentheses_append, parentheses_append, parentheses_cons_of_ne h, ih]
          simp

theorem parentheses_separated {separator : Token} (h : separator ≠ .openParen)
    (phrases : List Phrase) :
    parentheses (separated separator phrases) = parentheses (phrases.flatMap Prod.fst) := by
  rw [separated, parentheses_intercalate h, List.flatMap_def]

theorem parentheses_joinTokens (c : Connective) (parts : List (List Token)) :
    parentheses (c.joinTokens parts) = parentheses parts.flatten := by
  cases parts with
  | nil => exact parentheses_cons_of_ne (by simp) []
  | cons part parts => exact parentheses_intercalate (by simp) (part :: parts)

namespace Formula

/-! ## Printed formulas in a place -/

/-- The tokens of the printed formula in a place that requires a precedence. -/
def placed (required : Nat) (f : Formula) : List Token := f.encloseTokens required f.tokens

variable {required : Nat}

theorem placed_of_le {f : Formula} (h : required ≤ f.precedence) : f.placed required = f.tokens :=
  if_neg (Nat.not_lt.mpr h)

theorem parentheses_placed (required : Nat) (f : Formula) :
    parentheses (f.placed required) =
      parentheses f.tokens + if f.precedence < required then 1 else 0 := by
  unfold placed encloseTokens
  split
  next => exact parentheses_group f.tokens
  next => rfl

theorem parentheses_placed_mono {required' : Nat} (h : required ≤ required') (f : Formula) :
    parentheses (f.placed required) ≤ parentheses (f.placed required') := by
  rw [parentheses_placed, parentheses_placed]
  split <;> split <;> omega

theorem parentheses_tokens_le_placed (required : Nat) (f : Formula) :
    parentheses f.tokens ≤ parentheses (f.placed required) := by
  rw [parentheses_placed]
  exact Nat.le_add_right _ _

theorem parentheses_tokens_nary (c : Connective) (fs : List Formula) :
    parentheses (tokens (.nary c fs)) = parentheses (fs.flatMap (placed c.precedence)) := by
  rw [tokens_nary, parentheses_joinTokens, List.flatMap_def]
  rfl

/-! ## Phrases that are put together -/

/-- The operands that are taken in need no parentheses but those of the formula itself. -/
theorem parentheses_splice_le {c : Connective} (h : c.precedence ≤ required) (f : Formula) :
    parentheses ((splice c f).flatMap (placed c.precedence)) ≤ parentheses (f.placed required) := by
  rcases splice_eq c f with ⟨heq, -⟩ | ⟨fs, rfl, heq⟩
  · rw [heq, List.flatMap_singleton]
    exact parentheses_placed_mono h f
  · rw [heq, ← parentheses_tokens_nary]
    exact parentheses_tokens_le_placed required _

theorem parentheses_join_le {c : Connective} {phrases : List Phrase} (hne : phrases ≠ [])
    (h : ∀ p ∈ phrases, parentheses (p.2.placed (c.precedence + 1)) ≤ parentheses p.1) :
    parentheses ((join c (phrases.map Prod.snd)).placed c.precedence) ≤
      parentheses (separated (.connective c) phrases) := by
  match phrases, hne with
  | [p], _ =>
      rw [separated_singleton]
      exact Nat.le_trans (parentheses_placed_mono (Nat.le_succ _) p.2) (h p List.mem_cons_self)
  | p :: q :: phrases, _ =>
      have hjoin : join c ((p :: q :: phrases).map Prod.snd) =
          .nary c (((p :: q :: phrases).map Prod.snd).flatMap (splice c)) := rfl
      rw [hjoin, placed_of_le (Nat.le_refl c.precedence), parentheses_tokens_nary,
        parentheses_separated (by simp), List.flatMap_map, List.flatMap_assoc]
      refine parentheses_flatMap_le fun r hr => ?_
      exact Nat.le_trans (parentheses_splice_le (Nat.le_succ _) r.2) (h r hr)

/-- A chain of `^` that nests to the left needs parentheses for its operands only. -/
theorem parentheses_foldl_xor_le {phrases : List Phrase} {f : Formula} {tokens : List Token}
    (hf : parentheses (f.placed 2) ≤ parentheses tokens)
    (h : ∀ p ∈ phrases, parentheses (p.2.placed 3) ≤ parentheses p.1) :
    parentheses ((phrases.foldl (fun g p => .xor g p.2) f).placed 2) ≤
      parentheses (tokens ++ phrases.flatMap Prod.fst) := by
  induction phrases generalizing f tokens with
  | nil => simpa using hf
  | cons p phrases ih =>
      obtain ⟨hp, hphrases⟩ := List.forall_mem_cons.mp h
      rw [List.foldl_cons, List.flatMap_cons, ← List.append_assoc]
      refine ih ?_ hphrases
      have hxor : placed 2 (.xor f p.2) = f.placed 2 ++ .xor :: p.2.placed 3 := rfl
      rw [hxor, parentheses_append, parentheses_append, parentheses_cons_of_ne (by simp)]
      exact Nat.add_le_add hf hp

end Formula

/-- The precedence that a formula needs to be printed as a phrase of the category without
parentheses. -/
def Category.precedence : Category → Nat
  | disjunction => 1
  | exclusive => 2
  | conjunction => 3
  | unary => 4
  | primary => 5

variable {limit level : Nat} {category : Category} {tokens : List Token} {f : Formula}

open Formula in
/-- In the place of a phrase, the formula is printed with no more parentheses than the phrase
has. -/
theorem Derives.parentheses_le (h : Derives limit category level tokens f) :
    parentheses (f.placed category.precedence) ≤ parentheses tokens := by
  -- On the derivation: every rule but that of parentheses asks its parts for as much as the
  -- printer asks in their place, or for more.
  induction h with
  | var level name => exact Nat.le_refl _
  | const level value => exact Nat.le_refl _
  | @paren level tokens f _ _ ih =>
      -- The parentheses of the phrase pay for those that the place asks for.
      have htokens : parentheses f.tokens ≤ parentheses tokens :=
        Nat.le_trans (parentheses_tokens_le_placed 1 f) ih
      rw [parentheses_group, parentheses_placed]
      split <;> omega
  | primary _ ih => exact Nat.le_trans (parentheses_placed_mono (Nat.le_succ 4) _) ih
  | @not level tokens f _ _ ih =>
      have hnot : placed 4 (.not f) = .not :: f.placed 4 := rfl
      rw [Category.precedence, hnot, parentheses_cons_of_ne (by simp),
        parentheses_cons_of_ne (by simp)]
      exact ih
  | conjunction phrases hne _ ih => exact parentheses_join_le hne ih
  | exclusive first others _ _ ih =>
      obtain ⟨hfirst, hothers⟩ := List.forall_mem_cons.mp
        (List.forall_mem_iff_forall_getElem.mpr ih :
          ∀ p ∈ first :: others, parentheses (p.2.placed 3) ≤ parentheses p.1)
      rw [parentheses_separated (by simp), List.flatMap_cons]
      exact parentheses_foldl_xor_le
        (Nat.le_trans (parentheses_placed_mono (Nat.le_succ 2) first.2) hfirst) hothers
  | disjunction phrases hne _ ih => exact parentheses_join_le hne ih

/-! ## Parentheses of a text -/

namespace Token

theorem Spells.count_openParen {spelling : List Char} {token : Token} (h : Spells spelling token) :
    spelling.count '(' = parentheses [token] := by
  cases h with
  | @symbol ch _ hch =>
      have hsymbol := ofSymbol?_eq_some_iff.mpr hch
      by_cases hopen : ch = '('
      · subst hopen
        cases hsymbol
        rfl
      · have htoken : token ≠ .openParen := by
          rintro rfl
          exact hopen (List.mem_singleton.mp hch)
        rw [parentheses_cons_of_ne htoken, List.count_cons_of_ne hopen]
        rfl
  | name hname =>
      rw [parentheses_cons_of_ne (by simp), parentheses_nil, List.count_eq_zero]
      intro hopen
      exact absurd (hname.forall_isNameCharacter _ hopen) (by decide)

end Token

theorem IsCut.count_openParen {lexemes : List Lexeme} {tail chars : List Char}
    (h : IsCut lexemes tail chars) :
    chars.count '(' = parentheses (lexemes.map Lexeme.token) := by
  have hspace {space : List Char} (h : ∀ ch ∈ space, Token.isSeparator ch) :
      space.count '(' = 0 :=
    List.count_eq_zero.mpr fun hopen => absurd (h _ hopen) (by decide)
  induction h with
  | last htail => exact hspace htail
  | @lexeme x lexemes tail rest hx hspells _ _ ih =>
      rw [Lexeme.chars, List.count_append, List.count_append, hspace hx, hspells.count_openParen,
        ih, Nat.zero_add, ← parentheses_append]
      rfl

/-- The opening parentheses of a text are tokens, all of them. -/
theorem Token.count_openParen_of_tokenize {text : String} (h : tokenize text = .ok tokens) :
    text.toList.count '(' = parentheses tokens := by
  obtain ⟨lexemes, tail, hcut, rfl⟩ := exists_isCut_of_scan h
  rw [hcut.count_openParen, parentheses_append]
  rfl

namespace Formula

/-- A text that is read as a formula has at least as many parentheses as the printed text of
the formula, which is a text that is read as the formula too, if levels enough are left. -/
theorem count_openParen_render_le {text : String} (h : parse text = .ok f) :
    ∃ tokens, Token.tokenize text = .ok tokens ∧
      f.render.toList.count '(' ≤ tokens.count .openParen ∧
      (f.levels ≤ maxDepth → parse f.render = .ok f) := by
  obtain ⟨tokens, htokenize, hderives⟩ := exists_tokenize_of_parse h
  have hf : f.IsWritable := isWritable_of_parse h
  refine ⟨tokens ++ [.endOfInput], htokenize, ?_, ?_⟩
  · have hle : parentheses f.tokens ≤ parentheses tokens :=
      Nat.le_trans (parentheses_tokens_le_placed 1 f) hderives.parentheses_le
    rw [Token.count_openParen_of_tokenize (tokenize_render hf)]
    change parentheses (f.tokens ++ [.endOfInput]) ≤ parentheses (tokens ++ [.endOfInput])
    rw [parentheses_append, parentheses_append]
    exact Nat.add_le_add_right hle _
  · intro hlevels
    have hparse := parse_render_of_le hf hlevels
    rwa [(isFlat_of_parse h).flat_eq] at hparse

/-- Half of the parentheses here are for show. -/
theorem count_openParen_render_le_taken_in :
    let text := "((A | B)) & (A & (C ^ B))"
    let f : Formula := .nary .and
      [.nary .or [.var "A", .var "B"], .var "A", .xor (.var "C") (.var "B")]
    parse text = .ok f ∧ f.levels ≤ maxDepth ∧ f.render = "(A | B) & A & (C ^ B)" ∧
      ∃ tokens, Token.tokenize text = .ok tokens ∧
        f.render.toList.count '(' ≤ tokens.count .openParen ∧ parse f.render = .ok f := by
  intro text f
  have hparse : parse text = .ok f := by
    -- A node of one operand is printed in the parentheses of its kind.
    let g : Formula := .nary .and [.nary .or [.nary .and [.nary .or [.var "A", .var "B"]]],
      .nary .or [.nary .and [.var "A", .xor (.var "C") (.var "B")]]]
    have hgrouped : parse g.render = .ok g.flat := parse_render_of_le (by decide) (by decide)
    have hrender : g.render = text := by decide
    have hflat : g.flat = f := by decide
    rwa [hrender, hflat] at hgrouped
  have hlevels : f.levels ≤ maxDepth := by decide
  obtain ⟨tokens, htokenize, hle, hprinted⟩ := count_openParen_render_le hparse
  exact ⟨hparse, hlevels, by decide, tokens, htokenize, hle, hprinted hlevels⟩

end Formula

end BooleanSteps
