import BooleanSteps.Connective

/-!
# Laws

The laws of Boolean algebra that the simplifier applies. A law that AND and OR
share takes the connective it is about, so its dual is the same law about the
other one.
-/

namespace BooleanSteps

/-- A law of Boolean algebra. -/
inductive Law where
  | doubleNegation
  | deMorgan (c : Connective)
  | constantComplement
  | identity (c : Connective)
  | annulment (c : Connective)
  | idempotence (c : Connective)
  | complement (c : Connective)
  | absorption (c : Connective)
  | distribution (c : Connective)
  | xorIdentity
  | xorWithOne
  | xorCancellation
deriving DecidableEq, Inhabited

namespace Law

/-- The name a law is reported by: what it is called and what it says. -/
def title : Law → String
  | doubleNegation => "Double negation (~~X = X)"
  | deMorgan .and => "De Morgan (~(X & Y) = ~X | ~Y)"
  | deMorgan .or => "De Morgan (~(X | Y) = ~X & ~Y)"
  | constantComplement => "Constant complement (~1 = 0, ~0 = 1)"
  | identity .and => "AND identity (X & 1 = X)"
  | annulment .and => "AND annulment (X & 0 = 0)"
  | idempotence .and => "AND idempotence (X & X = X)"
  | complement .and => "AND complement (X & ~X = 0)"
  | absorption .and => "AND absorption (X & (X | Y) = X)"
  | distribution .and => "AND distribution, common factor ((X | Y) & (X | Z) = X | (Y & Z))"
  | identity .or => "OR identity (X | 0 = X)"
  | annulment .or => "OR annulment (X | 1 = 1)"
  | idempotence .or => "OR idempotence (X | X = X)"
  | complement .or => "OR complement (X | ~X = 1)"
  | absorption .or => "OR absorption (X | (X & Y) = X)"
  | distribution .or => "OR distribution, common factor ((X & Y) | (X & Z) = X & (Y | Z))"
  | xorIdentity => "XOR identity (X ^ 0 = X)"
  | xorWithOne => "XOR with 1 (X ^ 1 = ~X)"
  | xorCancellation => "XOR cancellation (X ^ X = 0)"

/-- The laws about one connective. -/
def ofConnective (c : Connective) : List Law :=
  [identity c, annulment c, idempotence c, complement c, absorption c, distribution c]

/-- Every law: those of negation, of AND, of OR and of XOR. -/
def all : List Law :=
  [doubleNegation, deMorgan .and, deMorgan .or, constantComplement] ++
    ofConnective .and ++ ofConnective .or ++
    [xorIdentity, xorWithOne, xorCancellation]

/-- The connective's part in the identifier of a law. -/
def connectiveName : Connective → String
  | .and => "And"
  | .or => "Or"

/-- A one-word name. -/
def identifier : Law → String
  | doubleNegation => "DoubleNegation"
  | deMorgan c => "DeMorgan" ++ connectiveName c
  | constantComplement => "ConstantComplement"
  | identity c => connectiveName c ++ "Identity"
  | annulment c => connectiveName c ++ "Annulment"
  | idempotence c => connectiveName c ++ "Idempotence"
  | complement c => connectiveName c ++ "Complement"
  | absorption c => connectiveName c ++ "Absorption"
  | distribution c => connectiveName c ++ "Distribution"
  | xorIdentity => "XorIdentity"
  | xorWithOne => "XorWithOne"
  | xorCancellation => "XorCancellation"

/-- The law with a given identifier. -/
def ofIdentifier? (name : String) : Option Law := all.find? fun law => law.identifier == name

/-- The same law about the other connective. -/
def dual : Law → Law
  | deMorgan c => deMorgan c.dual
  | identity c => identity c.dual
  | annulment c => annulment c.dual
  | idempotence c => idempotence c.dual
  | complement c => complement c.dual
  | absorption c => absorption c.dual
  | distribution c => distribution c.dual
  | law => law

@[simp] theorem dual_dual (law : Law) : law.dual.dual = law := by cases law <;> simp [dual]

theorem mem_all (law : Law) : law ∈ all := by
  cases law <;> (try rename_i c; cases c) <;> decide

end Law

end BooleanSteps
