import BooleanSteps.Normalization
import BooleanSteps.Reduction

/-!
# Simplification

A formula is normalized and then sent through passes, a reduction step and a
normalization each, until a pass prints the same text as the one before. That
last pass is dropped with its laws. The number of passes that change the text is
limited; when one more is needed there is no result.
-/

namespace BooleanSteps

namespace Formula

/-- A reduction step followed by normalization. -/
def pass (f : Formula) : Derived Formula := do
  let stepped ← f.stepDerived
  stepped.normalizeDerived

@[simp] theorem value_pass (f : Formula) : f.pass.value = f.step.normalize := rfl

@[simp] theorem applications_pass (f : Formula) :
    f.pass.applications =
      f.stepDerived.applications ++ f.step.normalizeDerived.applications := rfl

/-- Changing passes allowed when no limit is given: sixteen for each node and one more. -/
def defaultLimit (f : Formula) : Nat := 16 * (f.nodeCount + 1)

end Formula

/-- The passes that a normalized formula goes through. -/
inductive Run where
  /-- The pass prints the text of `result` again. -/
  | settled (result : Formula) (pass : Derived Formula)
  /-- The pass changes the text, but no changing pass is left. -/
  | exhausted (pass : Derived Formula)
  /-- The pass changes the text, and the run goes on from its formula. -/
  | changed (pass : Derived Formula) (rest : Run)

namespace Run

/-- The run of a formula with at most `limit` changing passes. -/
def ofFormula (limit : Nat) (f : Formula) : Run :=
  let pass := f.pass
  if pass.value.render = f.render then .settled f pass
  else
    match limit with
    | 0 => .exhausted pass
    | limit + 1 => .changed pass (ofFormula limit pass.value)

/-- The formula on which the run settles, with the laws of its changing passes. -/
def result? : Run → Option (Derived Formula)
  | settled result _ => some (pure result)
  | exhausted _ => none
  | changed pass rest =>
      rest.result?.map fun d => ⟨d.value, pass.applications ++ d.applications⟩

end Run

/-- A simplified formula and the steps that lead to it. -/
structure Simplification where
  formula : Formula
  steps : List Step
deriving DecidableEq

/-- The failure of a simplification that needs more than `limit` changing passes. -/
structure IterationLimit where
  limit : Nat
deriving DecidableEq

/-- What the failure is reported as. -/
def IterationLimit.message (e : IterationLimit) : String :=
  "simplification did not reach a fixpoint within " ++ toString e.limit ++ " iterations"

namespace Formula

/-- The limit on changing passes: the given one, else the one for the formula's size. -/
def limit (f : Formula) (given : Option Nat) : Nat := given.getD f.defaultLimit

@[simp] theorem limit_some (f : Formula) (given : Nat) : f.limit (some given) = given := rfl

/-- The run that simplifies the formula. -/
def run (f : Formula) (given : Option Nat) : Run :=
  .ofFormula (f.limit given) f.normalize

/-- The simplified formula with every law applied on the way, from the first
normalization to the last changing pass. -/
def simplifyDerived? (f : Formula) (given : Option Nat) : Option (Derived Formula) :=
  (f.run given).result?.map fun d =>
    ⟨d.value, f.normalizeDerived.applications ++ d.applications⟩

/-- Simplifies the formula, within a given limit or the one for its size. -/
def simplify (f : Formula) (given : Option Nat) : Except IterationLimit Simplification :=
  match f.simplifyDerived? given with
  | some d => .ok ⟨d.value, d.steps⟩
  | none => .error ⟨f.limit given⟩

end Formula

end BooleanSteps
