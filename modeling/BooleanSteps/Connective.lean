/-!
# Connectives

AND and OR, the two connectives that take any number of operands. Each is the
dual of the other, has one constant that changes nothing among its operands,
and one that decides the result alone.
-/

namespace BooleanSteps

/-- A connective with any number of operands. -/
inductive Connective where
  | and
  | or
deriving DecidableEq, Inhabited

namespace Connective

/-- The other connective. -/
def dual : Connective → Connective
  | and => or
  | or => and

/-- The constant that leaves the connective unchanged: true for AND, false for OR. -/
def neutral : Connective → Bool
  | and => true
  | or => false

/-- The constant that decides the connective alone: false for AND, true for OR. -/
def absorbing : Connective → Bool
  | and => false
  | or => true

/-- The symbol the connective is printed with. -/
def symbol : Connective → String
  | and => "&"
  | or => "|"

@[simp] theorem dual_dual (c : Connective) : c.dual.dual = c := by cases c <;> rfl

@[simp] theorem neutral_dual (c : Connective) : c.dual.neutral = c.absorbing := by cases c <;> rfl

@[simp] theorem absorbing_dual (c : Connective) : c.dual.absorbing = c.neutral := by
  cases c <;> rfl

@[simp] theorem not_neutral (c : Connective) : (!c.neutral) = c.absorbing := by cases c <;> rfl

@[simp] theorem not_absorbing (c : Connective) : (!c.absorbing) = c.neutral := by cases c <;> rfl

@[simp] theorem dual_ne (c : Connective) : c.dual ≠ c := by cases c <;> decide

theorem neutral_ne_absorbing (c : Connective) : c.neutral ≠ c.absorbing := by cases c <;> decide

end Connective

end BooleanSteps
