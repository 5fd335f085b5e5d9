import BooleanSteps.Formula.Basic

/-!
# Contexts

A formula with one place left open. Filling the place with a formula gives a
formula; a law that changes a part of a formula does so in a context.
-/

namespace BooleanSteps.Formula

/-- A formula with one hole. -/
inductive Context where
  | hole
  | not (inner : Context)
  | nary (c : Connective) (before : List Formula) (inner : Context) (after : List Formula)
  | xorLeft (inner : Context) (right : Formula)
  | xorRight (left : Formula) (inner : Context)

/-- The formula with `f` in the hole. -/
def Context.fill (f : Formula) : Context → Formula
  | hole => f
  | not inner => .not (inner.fill f)
  | nary c before inner after => .nary c (before ++ inner.fill f :: after)
  | xorLeft inner right => .xor (inner.fill f) right
  | xorRight left inner => .xor left (inner.fill f)

/-- The context that has the second one in the hole of the first. -/
def Context.comp : Context → Context → Context
  | hole, place => place
  | not inner, place => not (inner.comp place)
  | nary c before inner after, place => nary c before (inner.comp place) after
  | xorLeft inner right, place => xorLeft (inner.comp place) right
  | xorRight left inner, place => xorRight left (inner.comp place)

theorem Context.fill_comp (outer inner : Context) (f : Formula) :
    (outer.comp inner).fill f = outer.fill (inner.fill f) := by
  induction outer with
  | hole => rfl
  | not outer ih => simp only [comp, fill, ih]
  | nary c before outer after ih => simp only [comp, fill, ih]
  | xorLeft outer right ih => simp only [comp, fill, ih]
  | xorRight left outer ih => simp only [comp, fill, ih]

end BooleanSteps.Formula
