import BooleanSteps.Connective
import BooleanSteps.Digit

/-!
# Tokens

The tokens of a written formula. Each operator has one token however it is
spelled.
-/

namespace BooleanSteps

/-- A token of a written formula. -/
inductive Token where
  | openParen
  | closeParen
  | connective (c : Connective)
  | xor
  | not
  | const (value : Bool)
  | var (name : String)
  | endOfInput
deriving DecidableEq, Inhabited

/-- What the token is called in messages. -/
def Token.describe : Token → String
  | openParen => "'('"
  | closeParen => "')'"
  | connective c => "'" ++ c.symbol ++ "'"
  | xor => "'^'"
  | not => "'~'"
  | const value => "constant '" ++ digit value ++ "'"
  | var name => "variable '" ++ name ++ "'"
  | endOfInput => "end of input"

end BooleanSteps
