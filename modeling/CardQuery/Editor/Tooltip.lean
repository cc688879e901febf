import CardQuery.Argument.Alias
import CardQuery.Cursor.Tag
import CardQuery.Text.LineIndex

/-!
# Tooltips

What is shown for a position: on a tag the help text of its argument, or that the argument is not
known; elsewhere the name of the node the position is in.
-/

set_option autoImplicit false

namespace CardQuery

/-- The display name of a kind of token. -/
def TokenKind.title : TokenKind → String
  | .blank => "Whitespace"
  | .word => "Word"
  | .literal .string => "String"
  | .literal .regex => "Regex"
  | .leftParen | .rightParen => "Paren"
  | .minus => "Minus"
  | .comparison _ => "Operator"
  | .keyword .and => "and"
  | .keyword .or => "or"
  | .unknown => "⚠"

/-- The display name of a kind of node. -/
def NodeKind.title : NodeKind → String
  | .program => "Program"
  | .domain => "Domain"
  | .query => "Query"
  | .queryName => "QueryName"
  | .queryBody => "QueryBody"
  | .tag => "Tag"
  | .sign => "Prefix"
  | .argument => "Argument"
  | .operator => "Operator"
  | .value => "Value"
  | .literal .string => "StringLiteral"
  | .literal .regex => "RegExp"
  | .clause => "Clause"
  | .binary .and => "And"
  | .binary .or => "Or"
  | .error => "⚠"

/-- What a tooltip is about. -/
inductive TooltipContent
  | help (argument : Text) (group : AliasGroup)
  | unknownArgument (argument : Text)
  | node (kind : NodeKind)
  deriving DecidableEq, Repr

/-- The text of a tooltip. -/
def TooltipContent.text : TooltipContent → Text
  | .help argument g => argument ++ " - ".toList ++ g.detail ++ '\n' :: g.info
  | .unknownArgument argument => argument ++ " - not a recognized argument".toList
  | .node kind => kind.title.toList

/-- A tooltip and the byte it is anchored at. -/
structure Tooltip where
  content : TooltipContent
  anchor : Nat
  deriving DecidableEq, Repr

/-- The tooltip of a tag. -/
def Tooltip.ofTag (tag : TagAtCursor) : Tooltip :=
  match aliasGroup? tag.argument.text with
  | some g => ⟨.help tag.argument.text g, tag.argument.start⟩
  | none => ⟨.unknownArgument tag.argument.text, tag.argument.start⟩

/-- The tooltip at an offset. Between two tokens the right one counts for naming a node. -/
def Tree.tooltipAt? (t : Tree) (offset : Nat) : Option Tooltip :=
  match t.tagAt? offset with
  | some tag => some (.ofTag tag)
  | none => do
    let token ← (t.tokensAt offset).head?
    let parent ← token.up?
    let kind ← parent.tree.kind?
    return ⟨.node kind, parent.start⟩

end CardQuery
