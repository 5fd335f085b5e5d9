/-!
# Digits

Truth values are written with the two binary digits, in formulas, in keys and in
the names of tokens.
-/

namespace BooleanSteps

/-- The digit a truth value is written with. -/
def digit : Bool → String
  | true => "1"
  | false => "0"

@[simp] theorem digit_inj {a b : Bool} : digit a = digit b ↔ a = b := by
  cases a <;> cases b <;> simp [digit]

end BooleanSteps
