import BooleanSteps.Law
import BooleanSteps.Formula.Printer

/-!
# Derivations

An application of a law replaces one formula by another. A derived value carries
the applications that led to it, in the order they were made. An application is
worth a step of an explanation only if it changes the printed formula: a law may
remove a difference that the printed form does not show.
-/

namespace BooleanSteps

/-- A law and the formula it is applied to, before and after. -/
structure Application where
  law : Law
  before : Formula
  after : Formula
deriving DecidableEq

/-- One line of an explanation: a law and the printed formula before and after it. -/
structure Step where
  law : Law
  before : String
  after : String
deriving DecidableEq

/-- The line of an explanation. -/
def Step.render (step : Step) : String :=
  step.law.title ++ " : " ++ step.before ++ " => " ++ step.after

/-- The step that an application is, if it changes the printed formula. -/
def Application.step? (a : Application) : Option Step :=
  if a.before.render = a.after.render then none
  else some ⟨a.law, a.before.render, a.after.render⟩

/-- The steps that the applications are. -/
def stepsOf (applications : List Application) : List Step :=
  applications.filterMap Application.step?

@[simp] theorem stepsOf_nil : stepsOf [] = [] := rfl

@[simp] theorem stepsOf_append (as bs : List Application) :
    stepsOf (as ++ bs) = stepsOf as ++ stepsOf bs := List.filterMap_append

/-- A value together with the applications of laws that led to it. -/
structure Derived (α : Type) where
  value : α
  applications : List Application

namespace Derived

variable {α β : Type}

/-- Derivations compose by appending their applications. -/
instance : Monad Derived where
  pure value := ⟨value, []⟩
  bind d f := ⟨(f d.value).value, d.applications ++ (f d.value).applications⟩

/-- The steps of the explanation. -/
def steps (d : Derived α) : List Step := stepsOf d.applications

@[simp] theorem value_pure (a : α) : (pure a : Derived α).value = a := rfl

@[simp] theorem applications_pure (a : α) : (pure a : Derived α).applications = [] := rfl

@[simp] theorem value_bind (d : Derived α) (f : α → Derived β) :
    (d >>= f).value = (f d.value).value := rfl

@[simp] theorem applications_bind (d : Derived α) (f : α → Derived β) :
    (d >>= f).applications = d.applications ++ (f d.value).applications := rfl

@[simp] theorem value_map (f : α → β) (d : Derived α) : (f <$> d).value = f d.value := rfl

@[simp] theorem applications_map (f : α → β) (d : Derived α) :
    (f <$> d).applications = d.applications := by
  change d.applications ++ [] = d.applications
  simp

/-- The derivation that makes one application and reaches its result. -/
def applying (law : Law) (before after : Formula) : Derived Formula :=
  ⟨after, [⟨law, before, after⟩]⟩

@[simp] theorem value_applying (law : Law) (before after : Formula) :
    (applying law before after).value = after := rfl

@[simp] theorem applications_applying (law : Law) (before after : Formula) :
    (applying law before after).applications = [⟨law, before, after⟩] := rfl

end Derived

end BooleanSteps
