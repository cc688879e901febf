import CardQuery.Tree.Focus

/-!
# Indentation

How far a new line at an offset is indented: one level for each clause that is open there. A line
that starts with a closing parenthesis is one level further out.
-/

set_option autoImplicit false

namespace CardQuery

/-- The byte of the closing parenthesis of a clause. -/
def Focus.closingParen? (f : Focus) : Option Nat :=
  (f.children.find? fun c => c.tree.tokenKind? = some .rightParen).map Focus.start

/-- Whether a place is a clause that opens before an offset and does not close before it. -/
def Focus.isOpenAt (offset : Nat) (f : Focus) : Bool :=
  f.tree.isKind .clause && f.start < offset
    && f.closingParen?.all fun close => offset ≤ close

namespace Tree

/-- Whether the first token that is not blank and ends after an offset closes a clause. -/
def closesAt (t : Tree) (offset : Nat) : Bool :=
  match t.leaves.find? fun f => offset < f.stop && f.tree.tokenKind? ≠ some .blank with
  | some f => f.tree.tokenKind? = some .rightParen
  | none => false

/-- The level of a new line at an offset. -/
def indentLevel (t : Tree) (offset : Nat) : Nat :=
  let opened := (t.nodes.filter (Focus.isOpenAt offset)).length
  if t.closesAt offset then opened - 1 else opened

/-- The blanks that a new line at an offset starts with, two for each level. -/
def indentation (t : Tree) (offset : Nat) : Text :=
  List.replicate (2 * t.indentLevel offset) ' '

end Tree

end CardQuery
