/-!
# Blank characters

The characters with the Unicode property White_Space, and the words of a text
that they separate.
-/

namespace BooleanSteps.Text

/-- The code points with the property White_Space, as ranges with both ends. -/
def blankRanges : List (Nat × Nat) :=
  [(0x09, 0x0D), (0x20, 0x20), (0x85, 0x85), (0xA0, 0xA0), (0x1680, 0x1680),
    (0x2000, 0x200A), (0x2028, 0x2029), (0x202F, 0x202F), (0x205F, 0x205F), (0x3000, 0x3000)]

/-- Whether the character has the property White_Space. -/
def isBlank (ch : Char) : Bool :=
  blankRanges.any fun (first, last) => first ≤ ch.toNat && ch.toNat ≤ last

/-- The characters without the blank ones at both ends. -/
def trimChars (chars : List Char) : List Char :=
  ((chars.dropWhile isBlank).reverse.dropWhile isBlank).reverse

/-- The text without blank characters at both ends. -/
def trim (text : String) : String := .ofList (trimChars text.toList)

/-- The longest runs of characters that are not blank. -/
def wordsOf (chars : List Char) : List (List Char) :=
  (chars.splitOnP isBlank).filter (· ≠ [])

/-- The words of a text. -/
def words (text : String) : List String := (wordsOf text.toList).map .ofList

end BooleanSteps.Text
