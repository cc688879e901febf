import CardQuery.Tree.Focus

/-!
# The tag under the cursor

The parts of the tag that an offset touches, each with the byte at which it starts.
-/

set_option autoImplicit false

namespace CardQuery

/-- A part of a tag and the byte at which it starts. -/
structure TagPart where
  text : Text
  start : Nat
  deriving DecidableEq, Repr

/-- The tag at an offset. -/
structure TagAtCursor where
  sign : Option Text
  argument : TagPart
  operator : Option TagPart
  value : Option TagPart
  span : Span
  deriving DecidableEq, Repr

/-- The part that a place holds. -/
def TagPart.ofFocus (f : Focus) : TagPart :=
  ⟨f.tree.text, f.start⟩

namespace Tree

/-- The nearest node of a kind of interest around a token that touches an offset. -/
def ancestorAt? (t : Tree) (offset : Nat) (p : Focus → Bool) : Option Focus :=
  (t.tokensAt offset).findSome? fun f => f.ancestors.find? p

/-- The tag at an offset. A tag without an argument is passed over. -/
def tagAt? (t : Tree) (offset : Nat) : Option TagAtCursor := do
  let tag ← t.ancestorAt? offset fun f => f.tree.isKind .tag
  let argument ← tag.child? .argument
  return {
    sign := (tag.child? .sign).map fun f => f.tree.text
    argument := .ofFocus argument
    operator := (tag.child? .operator).map .ofFocus
    value := tag.value?.map .ofFocus
    span := tag.span }

end Tree

end CardQuery
