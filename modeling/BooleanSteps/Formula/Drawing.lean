import BooleanSteps.Digit
import BooleanSteps.Formula.Basic

/-!
# Drawing formulas

Two views of a formula that show every node and its place: one line in which each
node opens a parenthesis, and a drawing with one node a line and branches to the
left of the nodes.
-/

namespace BooleanSteps.Formula

/-- What the root of the formula is drawn as. -/
def symbol : Formula → String
  | .const value => digit value
  | .var name => name
  | .not _ => "~"
  | .nary c _ => c.symbol
  | .xor _ _ => "^"

mutual

/-- The tree on one line: a leaf is its symbol, any other node a parenthesis that
holds its symbol and its operands. -/
def outline : Formula → String
  | .const value => digit value
  | .var name => name
  | .not f => "(~ " ++ f.outline ++ ")"
  | .nary c fs => "(" ++ c.symbol ++ outlineAll fs ++ ")"
  | .xor l r => "(^ " ++ l.outline ++ " " ++ r.outline ++ ")"

/-- Several trees on one line, each after a space. -/
def outlineAll : List Formula → String
  | [] => ""
  | f :: fs => " " ++ f.outline ++ outlineAll fs

end

/-- The rows of a subtree below a node: the first row joins the branch, the others
stand below it. The branch of the last subtree goes no further down. -/
def branch (last : Bool) (rows : List String) : List String :=
  match rows with
  | [] => []
  | first :: others =>
      ((if last then "└── " else "├── ") ++ first) ::
        others.map ((if last then "    " else "│   ") ++ ·)

mutual

/-- The drawing, one node a row, the root first. -/
def rows : Formula → List String
  | .const value => [digit value]
  | .var name => [name]
  | .not f => "~" :: branch true f.rows
  | .nary c fs => c.symbol :: branches fs
  | .xor l r => "^" :: (branch false l.rows ++ branch true r.rows)

/-- The rows of the operands of one node. -/
def branches : List Formula → List String
  | [] => []
  | f :: fs => branch fs.isEmpty f.rows ++ branches fs

end

/-- The drawing as a text, each row ended by a newline. -/
def drawing (f : Formula) : String := String.join (f.rows.map (· ++ "\n"))

end BooleanSteps.Formula
