import BooleanSteps.Formula.Parser

/-!
# The grammar of formulas

What it means that tokens are written for a formula, without reading them: a
disjunction is made of exclusive chains with `|` between them, a chain of
conjunctions with `^`, a conjunction of negated or plain operands with `&`, and a
parenthesis holds a disjunction.

Every token stands at a level: the parentheses around it, the negations before its
operand and the `^` read before it in the chains around it are counted. An opening
parenthesis, a negation or a `^` must stand at a level below a limit.
-/

namespace BooleanSteps

/-- The kinds of phrases. -/
inductive Category where
  | disjunction
  | exclusive
  | conjunction
  | unary
  | primary
deriving DecidableEq

/-- A phrase: tokens and the formula they are written for. -/
abbrev Phrase := List Token × Formula

/-- The tokens of several phrases with a separator between them. -/
def separated (separator : Token) (phrases : List Phrase) : List Token :=
  [separator].intercalate (phrases.map Prod.fst)

/-- At a level, tokens form a phrase of a category that is written for a formula. -/
inductive Derives (limit : Nat) : Category → Nat → List Token → Formula → Prop
  | var (level : Nat) (name : String) : Derives limit .primary level [.var name] (.var name)
  | const (level : Nat) (value : Bool) : Derives limit .primary level [.const value] (.const value)
  | paren {level : Nat} {tokens : List Token} {f : Formula} :
      level < limit → Derives limit .disjunction (level + 1) tokens f →
      Derives limit .primary level (.openParen :: tokens ++ [.closeParen]) f
  | primary {level : Nat} {tokens : List Token} {f : Formula} :
      Derives limit .primary level tokens f → Derives limit .unary level tokens f
  | not {level : Nat} {tokens : List Token} {f : Formula} :
      level < limit → Derives limit .unary (level + 1) tokens f →
      Derives limit .unary level (.not :: tokens) (.not f)
  /-- Operands of one `&`. -/
  | conjunction {level : Nat} (phrases : List Phrase) :
      phrases ≠ [] → (∀ p ∈ phrases, Derives limit .unary level p.1 p.2) →
      Derives limit .conjunction level (separated (.connective .and) phrases)
        (.join .and (phrases.map Prod.snd))
  /-- A chain of `^`: behind each of them the level is one higher. -/
  | exclusive {level : Nat} (first : Phrase) (others : List Phrase) :
      (∀ i, i < others.length → level + i < limit) →
      (∀ i (h : i < (first :: others).length),
        Derives limit .conjunction (level + i) (first :: others)[i].1 (first :: others)[i].2) →
      Derives limit .exclusive level (separated .xor (first :: others))
        (others.foldl (fun f p => .xor f p.2) first.2)
  /-- Operands of one `|`. -/
  | disjunction {level : Nat} (phrases : List Phrase) :
      phrases ≠ [] → (∀ p ∈ phrases, Derives limit .exclusive level p.1 p.2) →
      Derives limit .disjunction level (separated (.connective .or) phrases)
        (.join .or (phrases.map Prod.snd))

end BooleanSteps
