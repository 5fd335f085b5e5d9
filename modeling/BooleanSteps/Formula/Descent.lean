import BooleanSteps.Formula.Parser

/-!
# Reading by descent

Formulas can also be read without unfinished groups, by one procedure for each kind of phrase that
calls those for the phrases inside. The procedures share a cursor: the place of the next token and
a count of the open levels. A parenthesis and a negation open a level and close it behind what they
hold. Each `^` of a chain opens one, and the chain closes all of them behind its last operand.

Where the cursor has been is kept. Closing more levels than are open is a failure of its own.

Calls may be nested, and loops repeated, a given number of times. A call that needs more has no
outcome at all.
-/

namespace BooleanSteps

/-- Where the next token stands, and how many levels are open. -/
structure Cursor where
  position : Nat
  depth : Nat
deriving DecidableEq

/-- The cursor, and what it has been before, the latest first. -/
structure Trail where
  cursor : Cursor
  earlier : List Cursor
deriving DecidableEq

/-- Why a call ends without a formula. -/
inductive Halt where
  | refused (e : ParseError)
  /-- More levels are closed than are open. -/
  | underflow
deriving DecidableEq

/-- A part of reading by descent. -/
abbrev Descent (α : Type) : Type := ExceptT Halt (StateT Trail Option) α

/-- The procedures. -/
inductive Procedure where
  | expression
  | disjunction
  | exclusive
  | conjunction
  | unary
  | primary
deriving DecidableEq

/-- The token at a place. Behind the last token there are only ends. -/
def tokenAt (tokens : List Token) (position : Nat) : Token := tokens.getD position .endOfInput

namespace Descent

variable (tokens : List Token)

/-- The cursor. -/
def cursor : Descent Cursor := return (← get).cursor

/-- Sets the cursor. -/
def move (next : Cursor) : Descent Unit := modify fun trail => ⟨next, trail.cursor :: trail.earlier⟩

/-- The next token. -/
def peek : Descent Token := return tokenAt tokens (← cursor).position

/-- Goes behind the next token, if there is one in the list. -/
def advance : Descent Unit := do
  let here ← cursor
  if here.position < tokens.length then move { here with position := here.position + 1 }

/-- Goes behind the next token if it is the given one, and tells whether it is. -/
def eat (token : Token) : Descent Bool := do
  if (← peek tokens) = token then
    advance tokens
    return true
  else
    return false

/-- Fails at the next token. -/
def refuse {α : Type} (fault : ParseFault) : Descent α := do
  throw (.refused ⟨fault, ← peek tokens, (← cursor).position⟩)

/-- Opens a level, if one is left. -/
def openLevel : Descent Unit := do
  let here ← cursor
  if maxDepth ≤ here.depth then refuse tokens .tooDeep
  else move { here with depth := here.depth + 1 }

/-- Closes levels. -/
def closeLevels (count : Nat) : Descent Unit := do
  let here ← cursor
  if count ≤ here.depth then move { here with depth := here.depth - count }
  else throw .underflow

/-- No outcome: no call is left. -/
def unfinished {α : Type} : Descent α := ExceptT.lift (StateT.lift none)

/-- Joins the operands behind the connective to those before it. -/
def joinMore (c : Connective) (operand : Descent Formula) : Nat → Formula → Descent Formula
  | 0, _ => unfinished
  | calls + 1, joined => do
      if ← eat tokens (.connective c) then
        let next ← operand
        joinMore c operand calls (.join c [joined, next])
      else
        return joined

/-- Continues a chain of `^` that has some links. -/
def chainMore (operand : Descent Formula) : Nat → Formula → Nat → Descent Formula
  | 0, _, _ => unfinished
  | calls + 1, chain, links => do
      if (← peek tokens) = .xor then
        openLevel tokens
        advance tokens
        let next ← operand
        chainMore operand calls (.xor chain next) (links + 1)
      else
        closeLevels links
        return chain

/-- Reads a phrase. -/
def call : Nat → Procedure → Descent Formula
  | 0, _ => unfinished
  | calls + 1, .expression => call calls .disjunction
  | calls + 1, .disjunction => do
      let first ← call calls .exclusive
      joinMore tokens .or (call calls .exclusive) calls first
  | calls + 1, .exclusive => do
      let first ← call calls .conjunction
      chainMore tokens (call calls .conjunction) calls first 0
  | calls + 1, .conjunction => do
      let first ← call calls .unary
      joinMore tokens .and (call calls .unary) calls first
  | calls + 1, .unary => do
      if (← peek tokens) = .not then
        openLevel tokens
        advance tokens
        let operand ← call calls .unary
        closeLevels 1
        return .not operand
      else
        call calls .primary
  | calls + 1, .primary => do
      match ← peek tokens with
      | .var name =>
          advance tokens
          return .var name
      | .const value =>
          advance tokens
          return .const value
      | .openParen =>
          openLevel tokens
          advance tokens
          let inner ← call calls .expression
          if ← eat tokens .closeParen then
            closeLevels 1
            return inner
          else
            refuse tokens .expectedClosing
      | _ => refuse tokens .expectedOperand

/-- Reads the tokens up to the first end. -/
def readAll (calls : Nat) : Descent Formula := do
  let f ← call tokens calls .expression
  match ← peek tokens with
  | .endOfInput => return f
  | _ => refuse tokens .trailing

end Descent

end BooleanSteps
