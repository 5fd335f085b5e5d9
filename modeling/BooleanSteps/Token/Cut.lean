import BooleanSteps.Token.Lexer

/-!
# Cuts

A cut of a text is a way to see it as tokens: runs of separators and the spellings
of tokens in turn, with no name followed by a character that would continue it.
-/

namespace BooleanSteps

namespace Token

/-- The characters that spell a token on their own. -/
def symbols : Token → List Char
  | openParen => ['(']
  | closeParen => [')']
  | connective .and => andSymbols
  | connective .or => orSymbols
  | xor => xorSymbols
  | not => notSymbols
  | const false => ['0']
  | const true => ['1']
  | var _ => []
  | endOfInput => []

/-- The characters form a name: an ASCII letter other than `v` and `V`, then ASCII
letters, digits and underscores. -/
def IsName (chars : List Char) : Prop :=
  ∃ first rest, chars = first :: rest ∧ first.isAlpha ∧ first ≠ 'v' ∧ first ≠ 'V' ∧
    ∀ ch ∈ rest, isNameCharacter ch

instance (chars : List Char) : Decidable (IsName chars) :=
  match chars with
  | [] => isFalse fun ⟨_, _, heq, _⟩ => nomatch heq
  | first :: rest =>
      decidable_of_iff
        (first.isAlpha ∧ first ≠ 'v' ∧ first ≠ 'V' ∧ rest.all isNameCharacter)
        ⟨fun ⟨hfirst, hv, hV, hrest⟩ =>
            ⟨first, rest, rfl, hfirst, hv, hV, List.all_eq_true.mp hrest⟩,
          fun ⟨_, _, heq, hfirst, hv, hV, hrest⟩ => by
            cases heq
            exact ⟨hfirst, hv, hV, List.all_eq_true.mpr hrest⟩⟩

/-- The characters are a spelling of the token. -/
inductive Spells : List Char → Token → Prop
  | symbol {ch : Char} {token : Token} : ch ∈ token.symbols → Spells [ch] token
  | name {chars : List Char} : IsName chars → Spells chars (.var (.ofList chars))

end Token

/-- A token as it stands in a text: the separators before it and its spelling. -/
structure Lexeme where
  space : List Char
  spelling : List Char
  token : Token
deriving DecidableEq

/-- The characters of the lexeme. -/
def Lexeme.chars (x : Lexeme) : List Char := x.space ++ x.spelling

/-- The characters do not continue a name. -/
def EndsName (chars : List Char) : Prop := ∀ ch ∈ chars.head?, ¬ Token.isNameCharacter ch

/-- The lexemes and the separators after the last are a cut of the characters. -/
inductive IsCut : List Lexeme → List Char → List Char → Prop
  | last {tail : List Char} : (∀ ch ∈ tail, Token.isSeparator ch) → IsCut [] tail tail
  | lexeme {x : Lexeme} {lexemes : List Lexeme} {tail rest : List Char} :
      (∀ ch ∈ x.space, Token.isSeparator ch) → Token.Spells x.spelling x.token →
      ((∃ name, x.token = .var name) → EndsName rest) →
      IsCut lexemes tail rest → IsCut (x :: lexemes) tail (x.chars ++ rest)

end BooleanSteps
