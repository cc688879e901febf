import CardQuery.Text.Basic

/-!
# Blank characters

A character is blank when it has the Unicode property White_Space: 25 code points, in ten runs.
Blanks separate terms, and `Text.trim` drops them from both ends of a text.
-/

set_option autoImplicit false

namespace CardQuery

/-- The runs of code points with the property White_Space, first and last of each. -/
def blankRuns : List (Nat × Nat) :=
  [(0x9, 0xD), (0x20, 0x20), (0x85, 0x85), (0xA0, 0xA0), (0x1680, 0x1680), (0x2000, 0x200A),
   (0x2028, 0x2029), (0x202F, 0x202F), (0x205F, 0x205F), (0x3000, 0x3000)]

/-- Whether a character is blank. -/
def isBlank (c : Char) : Bool :=
  blankRuns.any fun (first, last) => first ≤ c.toNat && c.toNat ≤ last

namespace Text

/-- A text without the blanks at its start. -/
def trimLeft (t : Text) : Text :=
  t.dropWhile isBlank

/-- A text without the blanks at its end. -/
def trimRight (t : Text) : Text :=
  (t.reverse.dropWhile isBlank).reverse

/-- A text without the blanks at either end. -/
def trim (t : Text) : Text :=
  trimRight (trimLeft t)

end Text

end CardQuery
