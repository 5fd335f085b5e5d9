import BooleanSteps.Digit
import BooleanSteps.Formula.Basic

/-!
# Printing formulas

A formula is printed in infix form. From loosest to tightest the operators are
`|`, `^`, `&` and `~`; an operand is parenthesized when it binds less tightly
than its place requires, and not otherwise. XOR reads from the left, so its right
operand must bind more tightly than XOR itself.
-/

namespace BooleanSteps

namespace Connective

/-- How tightly the connective binds its operands. -/
def precedence : Connective → Nat
  | or => 1
  | and => 3

/-- The text between two operands. -/
def separator (c : Connective) : String := " " ++ c.symbol ++ " "

/-- Operand texts joined by the connective. With no operands this is the constant
that the empty connective stands for. -/
def joinTexts (c : Connective) : List String → String
  | [] => digit c.neutral
  | texts => c.separator.intercalate texts

end Connective

namespace Formula

/-- How tightly the outermost operator of the formula binds. -/
def precedence : Formula → Nat
  | .nary c _ => c.precedence
  | .xor _ _ => 2
  | .not _ => 4
  | .const _ | .var _ => 5

/-- The text of a formula in a place that requires a precedence. -/
def enclose (required : Nat) (f : Formula) (text : String) : String :=
  if f.precedence < required then "(" ++ text ++ ")" else text

mutual

/-- The formula in infix form. -/
def render : Formula → String
  | .const value => digit value
  | .var name => name
  | .not f => "~" ++ enclose 4 f f.render
  | .nary c fs => c.joinTexts (renderAll c.precedence fs)
  | .xor l r => enclose 2 l l.render ++ " ^ " ++ enclose 3 r r.render

/-- Several formulas in places that require the same precedence. -/
def renderAll (required : Nat) : List Formula → List String
  | [] => []
  | f :: fs => enclose required f f.render :: renderAll required fs

end

@[simp] theorem renderAll_eq (required : Nat) (fs : List Formula) :
    renderAll required fs = fs.map fun f => enclose required f f.render := by
  induction fs with
  | nil => rfl
  | cons f fs ih => simp [renderAll, ih]

@[simp] theorem render_const (value : Bool) : render (.const value) = digit value := rfl

@[simp] theorem render_var (name : String) : render (.var name) = name := rfl

theorem render_not (f : Formula) : render (.not f) = "~" ++ enclose 4 f f.render := rfl

theorem render_nary (c : Connective) (fs : List Formula) :
    render (.nary c fs) = c.joinTexts (fs.map fun f => enclose c.precedence f f.render) := by
  simp [render]

theorem render_xor (l r : Formula) :
    render (.xor l r) = enclose 2 l l.render ++ " ^ " ++ enclose 3 r r.render := rfl

end Formula

end BooleanSteps
