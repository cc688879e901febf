import CardQuery.Argument.Alias
import CardQuery.Query.Settings
import CardQuery.Text.Blank
import CardQuery.Tree.View

/-!
# Taking the settings out of a region

A tag such as `order:name` says how to sort, not which cards to find. `strip` takes the setting
tags out of an expression and keeps the rest of its tokens. A clause with nothing but settings goes
with them, and so does the keyword beside an operand that is nothing but settings. What is left is
written out again by `residualText`: the pieces between the cuts, trimmed, with one space between
them except inside a parenthesis.
-/

set_option autoImplicit false

namespace CardQuery

/-- The setting that a tag gives: it has no sign, its argument spells a setting, its comparison is
a colon or an equals sign, and its value says something. -/
def settingOf? (tag : Tree) : Option (SettingKey × Text) :=
  match tag.sign?, tag.argument?, tag.operator?, tag.value? with
  | none, some a, some op, some v =>
    match setting? a.text, op.comparisonKind? with
    | some key, some kind =>
      if (kind = .comparison .colon ∨ kind = .comparison .equal) ∧ v.unquoted ≠ [] then
        some (key, v.unquoted)
      else none
    | _, _ => none
  | _, _, _, _ => none

/-- What is left of an expression. -/
structure Stripped where
  /-- The tokens that are left, and `none` wherever something was cut out. -/
  kept : List (Option Token)
  /-- The settings, in the order of the text. -/
  settings : List (SettingKey × Text)
  /-- Whether the expression consists of settings only. -/
  onlySettings : Bool
  deriving Repr

namespace Stripped

/-- Tokens that are kept. -/
def ofTokens (ts : List Token) : Stripped :=
  ⟨ts.map some, [], false⟩

/-- A part that is cut out, with the settings in it. -/
def cut (settings : List (SettingKey × Text)) : Stripped :=
  ⟨[none], settings, true⟩

/-- What is left of several parts. -/
def concat (parts : List Stripped) : Stripped :=
  ⟨parts.flatMap kept, parts.flatMap settings, false⟩

/-- What is left of a clause, given what is left of each child with whether it is an expression. -/
def clause (parts : List (Bool × Stripped)) : Stripped :=
  let inner := parts.filter Prod.fst
  let whole := concat (parts.map Prod.snd)
  if !inner.isEmpty && inner.all (fun p => p.2.onlySettings) then cut whole.settings else whole

/-- What is left of a binary node, given what is left of each child. The keyword goes when one
operand is settings only. -/
def binary (parts : List (Tree × Stripped)) (op : Connective) : Stripped :=
  let operands := (parts.filter fun p => p.1.isExpression).map fun p => p.2.onlySettings
  let withoutKeyword := parts.map fun p =>
    if p.1.tokenKind? = some (.keyword op) ∧ operands.any id then cut [] else p.2
  let whole := concat withoutKeyword
  { whole with onlySettings := operands[0]? = some true ∧ operands[1]? = some true }

end Stripped

namespace Tree

mutual

/-- What is left of a tree without its settings. Only expressions have settings. -/
def strip : Tree → Stripped
  | .token t => .ofTokens [t]
  | .node k cs =>
    match k with
    | .tag =>
      match settingOf? (.node k cs) with
      | some given => .cut [given]
      | none => .ofTokens (tokensOf cs)
    | .clause => .clause ((stripEach cs).map fun p => (p.1.isExpression, p.2))
    | .binary op => .binary (stripEach cs) op
    | _ => .ofTokens (tokensOf cs)

/-- What is left of each of several trees. -/
def stripEach : List Tree → List (Tree × Stripped)
  | [] => []
  | c :: cs => (c, strip c) :: stripEach cs

end

/-- What is left of a region. -/
def stripRegion (t : Tree) : Stripped :=
  .concat (t.children.map fun c => if c.isExpression then c.strip else .ofTokens c.tokens)

end Tree

/-- The runs of tokens between the cuts. -/
def piecesOf : List (Option Token) → List (List Token)
  | [] => [[]]
  | none :: rest => [] :: piecesOf rest
  | some t :: rest =>
    match piecesOf rest with
    | [] => [[t]]
    | piece :: pieces => (t :: piece) :: pieces

/-- A text with a further piece: after a space, unless that would stand inside a parenthesis. -/
def appendPiece (out piece : Text) : Text :=
  if out.isEmpty then piece
  else if out.getLast? = some '(' ∨ piece.head? = some ')' then out ++ piece
  else out ++ ' ' :: piece

/-- The text of what is left: the pieces between the cuts, trimmed and put together. -/
def residualText (kept : List (Option Token)) : Text :=
  let pieces := (piecesOf kept).map fun ts => (tokensText ts).trim
  (pieces.filter fun piece => !piece.isEmpty).foldl appendPiece []

end CardQuery
