import CardQuery.Argument.Alias
import CardQuery.Cursor.Constraint
import CardQuery.Editor.Candidate
import CardQuery.Text.Blank
import CardQuery.Text.Lowercase

/-!
# Completion

What can be typed at an offset. Where a term can begin, or its first word is being typed, these are
the spellings of arguments. After a comparison, or in a value, these are the candidates of the
argument that have the typed text in them and that the rest of the query does not decide already.
-/

set_option autoImplicit false

namespace CardQuery

/-- What a completion item inserts. -/
inductive CompletionKind
  | argument
  | value
  deriving DecidableEq, Repr

/-- The number that editors know a kind of item by. -/
def CompletionKind.code : CompletionKind → Nat
  | .argument => 5
  | .value => 12

/-- One suggestion. -/
structure CompletionItem where
  label : Text
  kind : CompletionKind
  detail : Option Text
  info : Option Text
  displayLabel : Option Text
  group : Option Text
  /-- The text to insert, when it is not the label. -/
  apply : Option Text
  /-- Items with a lower number come first. -/
  priority : Nat
  deriving DecidableEq, Repr

namespace CompletionItem

/-- An item with a label alone. -/
def ofLabel (label : Text) (kind : CompletionKind) : CompletionItem :=
  ⟨label, kind, none, none, none, none, none, 100⟩

/-- The text that an item inserts. -/
def insertText (i : CompletionItem) : Text :=
  i.apply.getD i.label

/-- The item for a spelling of an argument. -/
def ofAlias (settings : EditorSettings) (g : AliasGroup) (name : Text) : CompletionItem :=
  { ofLabel name .argument with
    detail := if settings.autoDetail then some g.detail else none
    info := if settings.autoInfo then some g.info else none }

/-- The item for a candidate that inserts `written`. -/
def ofCandidate (c : Candidate) (written : Text) (priority : Nat) : CompletionItem :=
  ⟨c.label, .value, c.detail, c.info, c.displayLabel, c.group,
    if written = c.label then none else some written, priority⟩

end CompletionItem

/-- The suggestions at an offset: they replace the text from `start` up to it. -/
structure CompletionResult where
  start : Nat
  items : List CompletionItem
  deriving DecidableEq, Repr

/-! ## Writing a value -/

/-- Whether a character cannot stand in an unquoted value. -/
def needsQuotes (c : Char) : Bool :=
  isBlank c || ['(', ')', '"', ':', '=', '<', '>', '!'].contains c

/-- A text in quotes, with its quotes and backslashes escaped. -/
def quoted (t : Text) : Text :=
  '"' :: t.flatMap (fun c => if c = '"' ∨ c = '\\' then ['\\', c] else [c]) ++ ['"']

/-- A value as it is written in a tag: in quotes when it is empty or has a character that needs
them. -/
def writeValue (t : Text) : Text :=
  if t.isEmpty || t.any needsQuotes then quoted t else t

/-! ## What is being completed -/

/-- What is being typed at an offset, with the byte where it starts and the text so far. -/
inductive CompletionContext
  | argument (start : Nat) (typed : Text)
  | value (tag : Tree) (start : Nat) (typed : Text)

/-- The part of a place's text before an offset; nothing is left of it when the offset is inside a
character. -/
def Focus.typedBefore (f : Focus) (offset : Nat) : Text :=
  (Text.takeWidth? (min offset f.stop - min f.start offset) f.tree.text).getD []

/-- The tag around a place. -/
def Focus.tag? (f : Focus) : Option Tree :=
  (f.ancestors.find? fun a => a.tree.isKind .tag).map Focus.tree

/-- Whether a term can begin just before a token. -/
def Focus.beginsTerm (f : Focus) : Bool :=
  match f.parentKind? with
  | none => true
  | some k =>
    k = .argument || k = .sign || k.isRegion || f.tree.tokenKind? = some .leftParen

/-- What is being typed in or just after the token `f`. -/
def Focus.completionContext? (f : Focus) (offset : Nat) : Option CompletionContext :=
  if offset ≤ f.start then
    if f.beginsTerm then some (.argument offset []) else none
  else
    match f.tree.tokenKind?, f.parentKind? with
    | some .blank, _ | some .leftParen, _ | some .minus, some .sign => some (.argument offset [])
    | some .word, some .argument => some (.argument f.start (f.typedBefore offset))
    | some (.comparison _), some .operator => f.tag?.map fun tag => .value tag offset []
    | some .word, some .value | some .minus, some .value =>
      match f.up?, f.tag? with
      | some value, some tag => some (.value tag value.start (value.typedBefore offset))
      | _, _ => none
    | some (.literal .string), some (.literal .string) =>
      f.tag?.map fun tag =>
        .value tag f.start ((f.typedBefore offset).dropWhile (· = '"'))
    | _, _ => none

/-- What is being typed at an offset of a tree. The token that ends there counts before the one
that starts there. -/
def Tree.completionContext? (t : Tree) (offset : Nat) : Option CompletionContext :=
  match (t.tokensAt offset).getLast? with
  | none => some (.argument offset [])
  | some f => f.completionContext? offset

/-! ## The suggestions -/

/-- The items for the spellings of arguments that start with what is typed, in any letter case. -/
def argumentItems (settings : EditorSettings) (typed : Text) : List CompletionItem :=
  AliasGroup.table.flatMap fun g =>
    (g.aliases.filter fun name => typed.asciiLower.isPrefixOf name).map
      (CompletionItem.ofAlias settings g)

/-- How well a label fits what is typed, both in small letters: a label that starts with it comes
before one that has it elsewhere, and any other does not fit. -/
def fitPriority? (needle label : Text) : Option Nat :=
  if needle.isPrefixOf label then some 10
  else if Text.contains needle label then some 50
  else none

/-- The items with a label that no earlier item has. -/
def distinctLabels (seen : List Text) : List CompletionItem → List CompletionItem
  | [] => []
  | i :: is =>
    if seen.contains i.label then distinctLabels seen is
    else i :: distinctLabels (i.label :: seen) is

/-- The items for the candidates of a tag, the better fitting ones first. -/
def valueItems? (root tag : Tree) (catalog : Catalog) (settings : EditorSettings) (offset : Nat)
    (typed : Text) : Option (List CompletionItem) := do
  let argument := (← tag.argument?).text
  let operator := (← tag.operator?).text
  let kind ← argumentKind? argument
  let candidates ← catalog.candidates? settings kind
  let known := (root.constraintsAt offset).constraints
  let needle := typed.lower
  let items := candidates.filterMap fun c => do
    let priority ← fitPriority? needle c.label.lower
    let written := writeValue c.label
    if known.decides ⟨none, argument, operator, written⟩ then none
    else some (CompletionItem.ofCandidate c written priority)
  let (starting, others) := (distinctLabels [] items).partition fun i => i.priority = 10
  return starting ++ others

/-- The suggestions at an offset; nothing where nothing can be completed. -/
def Tree.completionsAt? (t : Tree) (catalog : Catalog) (settings : EditorSettings)
    (offset : Nat) : Option CompletionResult :=
  if t.width < offset then none
  else
    match t.completionContext? offset with
    | none => none
    | some (.argument start typed) => some ⟨start, argumentItems settings typed⟩
    | some (.value tag start typed) =>
      (valueItems? t tag catalog settings offset typed).map fun items => ⟨start, items⟩

end CardQuery
