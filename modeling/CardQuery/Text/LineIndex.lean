import CardQuery.Text.Basic

/-!
# Lines and columns

A `LineIndex` holds the byte at which each line of a text starts. `position` turns a byte offset
into a line and a column, `offset?` turns such a pair back. Lines and columns count from zero, a
column counts bytes from the start of its line, and a line ends after its newline.

A column can be any number of 32 bits, so the start of a line and a column can be more than that
together. What then happens is for the program to choose: it stops, or it leaves out the bits that
do not fit. `offset?` leaves them out, and `overflows` tells where a program that checks stops.
-/

set_option autoImplicit false

namespace CardQuery

/-- The sum of two offsets in 32 bits. Behind the greatest offset comes zero again. -/
def addOffset (m n : Nat) : Nat :=
  (m + n) % (maxOffset + 1)

theorem addOffset_of_le {m n : Nat} (h : m + n ≤ maxOffset) : addOffset m n = m + n := by
  unfold addOffset
  exact Nat.mod_eq_of_lt (by omega)

/-- A place in a text by line and by byte within the line. -/
structure Position where
  line : Nat
  column : Nat
  deriving DecidableEq, Repr

/-- Where the lines of a text start, and how wide the text is. -/
structure LineIndex where
  starts : List Nat
  width : Nat
  deriving DecidableEq, Repr

namespace LineIndex

/-- The offsets just after the newlines of a text that itself starts at `offset`. -/
def startsAfter (offset : Nat) : Text → List Nat
  | [] => []
  | c :: cs =>
    let next := offset + c.utf8Size
    if c = '\n' then next :: startsAfter next cs else startsAfter next cs

/-- The index of a text. The first line starts at 0, even in an empty text. -/
def ofText (t : Text) : LineIndex :=
  ⟨0 :: startsAfter 0 t, t.width⟩

/-- How many lines the text has. -/
def lineCount (index : LineIndex) : Nat :=
  index.starts.length

/-- The line and column of an offset; past the end, those of the end. -/
def position (index : LineIndex) (offset : Nat) : Position :=
  let offset := min offset index.width
  let begun := index.starts.takeWhile (· ≤ offset)
  ⟨begun.length - 1, offset - begun.getLastD 0⟩

/-- The offset of a line and column, cut to the end of the text; nothing when there is no such
line. -/
def offset? (index : LineIndex) (p : Position) : Option Nat :=
  index.starts[p.line]?.map fun start => min (addOffset start p.column) index.width

/-- Whether a column of a line is beyond the greatest offset. -/
def overflows (index : LineIndex) (p : Position) : Bool :=
  index.starts[p.line]?.any fun start => maxOffset < start + p.column

end LineIndex

end CardQuery
