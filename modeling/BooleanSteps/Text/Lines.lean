/-!
# Lines

A newline ends a line, and a carriage return right before it belongs to the line
break. Text after the last newline is a line too, unless it is empty.
-/

namespace BooleanSteps.Text

/-- The line without the carriage return of its line break. -/
def dropReturn (line : List Char) : List Char :=
  if line.getLast? = some '\r' then line.dropLast else line

/-- The lines of a list of characters. -/
def linesOf (chars : List Char) : List (List Char) :=
  let pieces := chars.splitOn '\n'
  pieces.dropLast.map dropReturn ++ pieces.getLast?.toList.filter (· ≠ [])

/-- The lines of a text. -/
def lines (text : String) : List String := (linesOf text.toList).map .ofList

/-- The text of which the given texts are the lines, each ended by a newline. -/
def unlines (texts : List String) : String := .join (texts.map (· ++ "\n"))

end BooleanSteps.Text
