import BooleanSteps.Formula.Parser
import BooleanSteps.Simplification

/-!
# The workbench

Formulas are built and reduced on a stack by commands that work on its top. A
command that fails leaves the stack as it is.
-/

namespace BooleanSteps

/-- A formula, written or given as a tree. -/
inductive Source where
  | text (text : String)
  | formula (f : Formula)

/-- The formula that is meant. -/
def Source.formula? : Source → Except ReadError Formula
  | text t => Formula.parse t
  | formula f => .ok f

namespace Workbench

/-- A command. -/
inductive Command where
  /-- Puts a formula on the stack. -/
  | push (source : Source)
  /-- Negates the top. -/
  | negate
  /-- Puts the negation of the top on it. -/
  | pushNegation
  | duplicate
  | drop
  /-- Exchanges the two uppermost formulas. -/
  | swap
  /-- Makes the uppermost formulas the operands of a connective, the deepest first. -/
  | gather (c : Connective) (count : Nat)
  /-- Joins the two uppermost formulas by XOR, the deeper one on the left. -/
  | exclusive
  | normalize
  | step
  | simplify (given : Option Nat)
  /-- Replaces the top by what its printed form is read as. -/
  | reparse
  /-- Replaces a node of AND or OR by its operands, the first the deepest. -/
  | explode

/-- The failure of a command. -/
inductive Fault where
  /-- The stack holds fewer formulas than the command takes. -/
  | underflow
  | unreadable (e : ReadError)
  | unsettled (e : IterationLimit)
deriving DecidableEq

/-- A stack after a command, the top first, and the steps that the command took. -/
structure Outcome where
  stack : List Formula
  steps : List Step

/-- Replaces the top by what is derived from it. -/
def derive (derivation : Formula → Derived Formula) : List Formula → Except Fault Outcome
  | f :: stack => .ok ⟨(derivation f).value :: stack, (derivation f).steps⟩
  | [] => .error .underflow

/-- The operands of a node of AND or OR, any other formula as it is. -/
def parts : Formula → List Formula
  | .nary _ fs => fs
  | f => [f]

/-- Carries out a command on a stack, the top first. -/
def execute : Command → List Formula → Except Fault Outcome
  | .push source, stack => do
      let f ← source.formula?.mapError .unreadable
      return ⟨f :: stack, []⟩
  | .negate, f :: stack => .ok ⟨.not f :: stack, []⟩
  | .pushNegation, f :: stack => .ok ⟨.not f :: f :: stack, []⟩
  | .duplicate, f :: stack => .ok ⟨f :: f :: stack, []⟩
  | .drop, _ :: stack => .ok ⟨stack, []⟩
  | .swap, f :: g :: stack => .ok ⟨g :: f :: stack, []⟩
  | .gather c count, stack =>
      if stack.length < count then .error .underflow
      else .ok ⟨.nary c (stack.take count).reverse :: stack.drop count, []⟩
  | .exclusive, right :: left :: stack => .ok ⟨.xor left right :: stack, []⟩
  | .normalize, stack => derive Formula.normalizeDerived stack
  | .step, stack => derive Formula.stepDerived stack
  | .simplify given, f :: stack => do
      let s ← (f.simplify given).mapError .unsettled
      return ⟨s.formula :: stack, s.steps⟩
  | .reparse, f :: stack => do
      let g ← (Formula.parse f.render).mapError .unreadable
      return ⟨g :: stack, []⟩
  | .explode, f :: stack => .ok ⟨(parts f).reverse ++ stack, []⟩
  | _, _ => .error .underflow

end Workbench

end BooleanSteps
