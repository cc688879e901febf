import CardQuery.Argument.Alias
import CardQuery.Tree.Focus

/-!
# Highlighting

Every token that is not blank is highlighted, by its kind and by the node it stands in.
-/

set_option autoImplicit false

namespace CardQuery

/-- How a token is shown. -/
inductive HighlightTag
  | sign
  | argument
  | invalidArgument
  | operator
  | value
  | string
  | regex
  | keyword
  | paren
  | queryName
  | invalid
  deriving DecidableEq, Repr

namespace HighlightTag

/-- The place of a tag in the legend that editors are given. -/
def code : HighlightTag → Nat
  | .sign => 0
  | .argument => 1
  | .invalidArgument => 2
  | .operator => 3
  | .value => 4
  | .string => 5
  | .regex => 6
  | .keyword => 7
  | .paren => 8
  | .queryName => 9
  | .invalid => 10

end HighlightTag

/-- A highlighted range. -/
structure Highlight where
  span : Span
  tag : HighlightTag
  deriving DecidableEq, Repr

/-- How the word of an argument is shown. A word that no comparison follows is a value: it asks
for a name. -/
def argumentHighlight (argument : Focus) (name : Text) : HighlightTag :=
  match argument.up? with
  | some parent =>
    if parent.tree.isKind .tag && parent.tree.operator?.isSome then
      if isArgument name then .argument else .invalidArgument
    else .value
  | none => .value

/-- How a token is shown; blanks are not. -/
def highlightTag? (f : Focus) (t : Token) : Option HighlightTag :=
  if f.parentKind? = some .error then some .invalid
  else
    match t.kind, f.parentKind? with
    | .blank, _ => none
    | .unknown, _ => some .invalid
    | .keyword _, _ => some .keyword
    | .leftParen, _ | .rightParen, _ => some .paren
    | .literal .string, _ => some .string
    | .literal .regex, _ => some .regex
    | .minus, some .sign => some .sign
    | .word, some .queryName => some .queryName
    | .comparison .colon, some .query => some .queryName
    | .word, some .argument => some ((f.up?.map (argumentHighlight · t.text)).getD .value)
    | .comparison _, _ => some .operator
    | _, _ => some .value

/-- The highlighted ranges of a tree, in order. -/
def Tree.highlights (t : Tree) : List Highlight :=
  t.leaves.filterMap fun f =>
    match f.tree with
    | .token found => (highlightTag? f found).map fun tag => ⟨f.span, tag⟩
    | .node _ _ => none

end CardQuery
