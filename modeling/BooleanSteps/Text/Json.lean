/-!
# JSON text

The parts of an indented JSON text. A list or a record has one item a line, two
columns to the right of its brackets, and nothing between its brackets when it
is empty. In a string, quotes, backslashes and control characters are escaped, and
all other characters stand for themselves.
-/

namespace BooleanSteps.Text.Json

/-- A control character as the four hexadecimal digits of its code point. -/
def hexEscape (ch : Char) : String :=
  "\\u00" ++ .ofList [(ch.toNat / 16).digitChar, (ch.toNat % 16).digitChar]

/-- The character as it is written in a string. -/
def escape (ch : Char) : String :=
  if ch = '"' then "\\\""
  else if ch = '\\' then "\\\\"
  else if ch = '\x08' then "\\b"
  else if ch = '\x0c' then "\\f"
  else if ch = '\n' then "\\n"
  else if ch = '\r' then "\\r"
  else if ch = '\t' then "\\t"
  else if ch.toNat < 0x20 then hexEscape ch
  else ch.toString

/-- The text as a JSON string. -/
def quote (text : String) : String := "\"" ++ .join (text.toList.map escape) ++ "\""

/-- The blanks before a line at a level of indentation. -/
def margin (level : Nat) : String := .ofList (List.replicate (2 * level) ' ')

/-- Items between brackets that stand at a level of indentation. -/
def bracket (opening closing : String) (level : Nat) (items : List String) : String :=
  if items.isEmpty then opening ++ closing
  else
    opening ++ "\n" ++ ",\n".intercalate (items.map (margin (level + 1) ++ ·)) ++ "\n" ++
      margin level ++ closing

/-- A list of written values. -/
def list (level : Nat) (values : List String) : String := bracket "[" "]" level values

/-- A record of names and written values. -/
def record (level : Nat) (fields : List (String × String)) : String :=
  bracket "\x7b" "\x7d" level (fields.map fun (name, value) => quote name ++ ": " ++ value)

end BooleanSteps.Text.Json
