import BooleanSteps.Formula.Basic
import BooleanSteps.Token.Lexer

/-!
# Reading formulas

Tokens are read from left to right, and what has been read so far is kept as
unfinished groups, one for the tokens outside all open parentheses and one for
each parenthesis that is open. From loosest to tightest the operators are `|`, `^`,
`&` and `~`. Chains of `|` and of `&` become one node, chains of `^` nest to the left.

Open parentheses, negations that wait for their operand and the `^` read in an
unfinished chain are levels. The reader is given a limit on them and refuses a token
that would open a level too many.
-/

namespace BooleanSteps

/-- The levels that may be open at once in a formula that is read. -/
def maxDepth : Nat := 256

/-! ## Failures -/

/-- What is wrong with a token. -/
inductive ParseFault where
  /-- An operand must stand here. -/
  | expectedOperand
  /-- The open parenthesis must be closed here, if no operator follows. -/
  | expectedClosing
  /-- The formula is complete. -/
  | trailing
  /-- The token would open a level too many. -/
  | tooDeep
deriving DecidableEq

/-- The first token that cannot follow those before it. -/
structure ParseError where
  fault : ParseFault
  found : Token
  position : Nat
deriving DecidableEq

/-- What the failure is reported as. -/
def ParseError.message (e : ParseError) : String :=
  (match e.fault with
    | .expectedOperand => "expected operand, found " ++ e.found.describe
    | .expectedClosing => "expected closing parenthesis, found " ++ e.found.describe
    | .trailing => "unconsumed input starting at " ++ e.found.describe
    | .tooDeep => "expression nests deeper than " ++ toString maxDepth ++ " levels") ++
  " (token #" ++ toString e.position ++ ")"

/-! ## Unfinished groups -/

namespace Formula

/-- The formula under a number of negations. -/
def negated : Nat → Formula → Formula
  | 0, f => f
  | n + 1, f => .not (negated n f)

/-- The operands before the last one and the last one, joined by `^` from the left. -/
def xorChain : List Formula → Formula → Formula
  | [], last => last
  | f :: fs, last => .xor (fs.foldl .xor f) last

end Formula

/-- What has been read since a parenthesis was opened, or since the start. -/
structure OpenGroup where
  /-- The operands of `|` that are complete. -/
  disjuncts : List Formula
  /-- The operands of the present chain of `^` that are complete, one for each `^`. -/
  chained : List Formula
  /-- The operands of the present `&` that are complete. -/
  conjuncts : List Formula
  /-- The negations that wait for their operand. -/
  negations : Nat
deriving DecidableEq

namespace OpenGroup

/-- A group of which nothing has been read. -/
def empty : OpenGroup := ⟨[], [], [], 0⟩

/-- The levels that the group keeps open. -/
def depth (g : OpenGroup) : Nat := g.chained.length + g.negations

/-- The levels that groups around an open parenthesis keep open, those of the
parentheses included. -/
def depthAround : List OpenGroup → Nat
  | [] => 0
  | g :: gs => g.depth + 1 + depthAround gs

/-- The operands of the present `&`. -/
def conjunction (g : OpenGroup) : Formula := .join .and g.conjuncts

/-- The present chain of `^`. -/
def chain (g : OpenGroup) : Formula := .xorChain g.chained g.conjunction

/-- The whole group. -/
def formula (g : OpenGroup) : Formula := .join .or (g.disjuncts ++ [g.chain])

/-- One more negation before the next operand. -/
def negate (g : OpenGroup) : OpenGroup := { g with negations := g.negations + 1 }

/-- The group after an operand, which the waiting negations take up. -/
def receive (g : OpenGroup) (f : Formula) : OpenGroup :=
  { g with conjuncts := g.conjuncts ++ [.negated g.negations f], negations := 0 }

/-- The group after `^`. -/
def extendChain (g : OpenGroup) : OpenGroup :=
  { g with chained := g.chained ++ [g.conjunction], conjuncts := [] }

/-- The group after `|`. -/
def extendDisjunction (g : OpenGroup) : OpenGroup :=
  { g with disjuncts := g.disjuncts ++ [g.chain], chained := [], conjuncts := [] }

end OpenGroup

/-- The groups that are unfinished: the one being read and those around it, from
the inside out, each interrupted by a parenthesis. -/
structure Unfinished where
  group : OpenGroup
  enclosing : List OpenGroup
deriving DecidableEq

namespace Unfinished

/-- Nothing has been read. -/
def start : Unfinished := ⟨.empty, []⟩

/-- The levels that are open. -/
def depth (u : Unfinished) : Nat := u.group.depth + OpenGroup.depthAround u.enclosing

/-- The unfinished groups after an opening parenthesis. -/
def enter (u : Unfinished) : Unfinished := ⟨.empty, u.group :: u.enclosing⟩

/-- Applies a change to the group being read. -/
def modify (u : Unfinished) (change : OpenGroup → OpenGroup) : Unfinished :=
  { u with group := change u.group }

end Unfinished

/-! ## Reading tokens -/

/-- A point between two tokens. -/
inductive Reading where
  /-- An operand must follow. -/
  | awaiting (u : Unfinished)
  /-- An operand has just been read. -/
  | complete (u : Unfinished)
deriving DecidableEq

namespace Reading

/-- Opens a level, if one is left. -/
def descend (limit : Nat) (u next : Unfinished) : Except ParseFault Reading :=
  if u.depth < limit then .ok (.awaiting next) else .error .tooDeep

/-- Reads one token that is not the end. -/
def feed (limit : Nat) : Reading → Token → Except ParseFault Reading
  | awaiting u, .var name => .ok (.complete (u.modify (·.receive (.var name))))
  | awaiting u, .const value => .ok (.complete (u.modify (·.receive (.const value))))
  | awaiting u, .openParen => descend limit u u.enter
  | awaiting u, .not => descend limit u (u.modify .negate)
  | awaiting _, _ => .error .expectedOperand
  | complete u, .connective .and => .ok (.awaiting u)
  | complete u, .connective .or => .ok (.awaiting (u.modify .extendDisjunction))
  | complete u, .xor => descend limit u (u.modify .extendChain)
  | complete ⟨group, outer :: enclosing⟩, .closeParen =>
      .ok (.complete ⟨outer.receive group.formula, enclosing⟩)
  | complete ⟨_, _ :: _⟩, _ => .error .expectedClosing
  | complete ⟨_, []⟩, _ => .error .trailing

/-- The formula that has been read, if it may end here. -/
def finish : Reading → Except ParseFault Formula
  | awaiting _ => .error .expectedOperand
  | complete ⟨_, _ :: _⟩ => .error .expectedClosing
  | complete ⟨group, []⟩ => .ok group.formula

/-- Reads the tokens up to the first end, or all of them if there is none. The
first token stands at `position`. -/
def read (limit position : Nat) (r : Reading) : List Token → Except ParseError Formula
  | [] | .endOfInput :: _ => r.finish.mapError (⟨·, .endOfInput, position⟩)
  | token :: tokens =>
      match r.feed limit token with
      | .ok next => read limit (position + 1) next tokens
      | .error fault => .error ⟨fault, token, position⟩

end Reading

/-- The failure of reading a formula from a text. -/
inductive ReadError where
  | lexical (e : LexicalError)
  | grammatical (e : ParseError)
deriving DecidableEq

/-- What the failure is reported as. -/
def ReadError.message : ReadError → String
  | lexical e => e.message
  | grammatical e => e.message

namespace Formula

/-- The formula that the tokens before the first end are written for. -/
def ofTokens (tokens : List Token) : Except ParseError Formula :=
  Reading.read maxDepth 0 (.awaiting .start) tokens

/-- The formula that a text is written for. -/
def parse (text : String) : Except ReadError Formula := do
  let tokens ← (Token.tokenize text).mapError .lexical
  (ofTokens tokens).mapError .grammatical

end Formula

end BooleanSteps
