import BooleanSteps.Token.Basic

/-!
# Cutting a text into tokens

Spaces, tabs and the two line-break characters separate tokens. Operators,
parentheses and digits are one character each; a name is as long as possible and
consists of ASCII letters, digits and underscores. The letter `v` is a spelling of
OR wherever a token may start, so no name begins with it.
-/

namespace BooleanSteps

/-- The failure of cutting a text: a character that starts no token, with its
offset in bytes of UTF-8. -/
structure LexicalError where
  character : Char
  offset : Nat
deriving DecidableEq

/-- What the failure is reported as. -/
def LexicalError.message (e : LexicalError) : String :=
  "unexpected character '" ++ e.character.toString ++ "' at offset " ++ toString e.offset

namespace Token

/-- The characters that may stand between tokens. -/
def isSeparator (ch : Char) : Bool :=
  ch == ' ' || ch == '\t' || ch == '\n' || ch == '\r'

/-- The spellings of AND. -/
def andSymbols : List Char := ['&', '*', '·', '∧']

/-- The spellings of OR. -/
def orSymbols : List Char := ['|', '+', 'v', 'V', '∨']

/-- The spellings of XOR. -/
def xorSymbols : List Char := ['^', '⊕']

/-- The spellings of NOT. -/
def notSymbols : List Char := ['~', '!', '¬']

/-- The token that a single character spells. -/
def ofSymbol? (ch : Char) : Option Token :=
  if ch = '(' then some .openParen
  else if ch = ')' then some .closeParen
  else if ch ∈ andSymbols then some (.connective .and)
  else if ch ∈ orSymbols then some (.connective .or)
  else if ch ∈ xorSymbols then some .xor
  else if ch ∈ notSymbols then some .not
  else if ch = '0' then some (.const false)
  else if ch = '1' then some (.const true)
  else none

/-- The characters of a name. -/
def isNameCharacter (ch : Char) : Bool := ch.isAlphanum || ch == '_'

/-- The number of bytes of the characters in UTF-8. -/
def byteCount : List Char → Nat
  | [] => 0
  | ch :: rest => ch.utf8Size + byteCount rest

/-- The tokens of characters that stand at a byte offset of a text, ended by
`endOfInput`. -/
def scan (offset : Nat) : List Char → Except LexicalError (List Token)
  | [] => .ok [.endOfInput]
  | ch :: rest =>
      if isSeparator ch then scan (offset + ch.utf8Size) rest
      else
        match ofSymbol? ch with
        | some token => do
            let tokens ← scan (offset + ch.utf8Size) rest
            return token :: tokens
        | none =>
            if ch.isAlpha then do
              let name := ch :: rest.takeWhile isNameCharacter
              let tokens ← scan (offset + byteCount name) (rest.dropWhile isNameCharacter)
              return .var (String.ofList name) :: tokens
            else .error ⟨ch, offset⟩
termination_by chars => chars.length
decreasing_by
  all_goals simp only [List.length_cons]
  · omega
  · omega
  · have := (List.dropWhile_sublist (p := isNameCharacter) (l := rest)).length_le
    omega

/-- The tokens of a text, ended by `endOfInput`. -/
def tokenize (text : String) : Except LexicalError (List Token) := scan 0 text.toList

end Token

end BooleanSteps
