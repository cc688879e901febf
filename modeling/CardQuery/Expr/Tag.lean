import CardQuery.Tree.View

/-!
# Tags

A tag asks one thing of a card: an argument, a comparison and a value, perhaps negated by a sign.
A word or a literal that stands alone asks for the card's name.
-/

set_option autoImplicit false

namespace CardQuery

/-- A tag. The value keeps its spelling, quotes and slashes included, and is empty when the tag
has none yet. -/
structure QueryTag where
  sign : Option Text
  argument : Text
  operator : Text
  value : Text
  deriving DecidableEq, Repr

namespace QueryTag

/-- A tag that asks for a name. -/
def ofName (sign : Option Text) (value : Text) : QueryTag :=
  ⟨sign, ['n', 'a', 'm', 'e'], [':'], value⟩

/-- The text of a tag: its parts side by side. -/
def text (t : QueryTag) : Text :=
  t.sign.getD [] ++ t.argument ++ t.operator ++ t.value

/-- Whether a tag has a sign. -/
def isNegated (t : QueryTag) : Bool :=
  t.sign.isSome

/-- A tag without its sign. -/
def positive (t : QueryTag) : QueryTag :=
  { t with sign := none }

theorem positive_of_unsigned {t : QueryTag} (h : t.isNegated = false) : t.positive = t := by
  rcases t with ⟨_ | s, a, op, value⟩
  · rfl
  · cases h

/-- A tag with a minus sign. -/
def negated (t : QueryTag) : QueryTag :=
  { t with sign := some ['-'] }

/-- The tag of a term. A tag node that is a sign alone asks nothing, and has none. -/
def ofTerm? (t : Tree) : Option QueryTag :=
  match t.kind? with
  | some .tag =>
    let sign := t.sign?.map Tree.text
    match t.argument?, t.operator? with
    | some a, some op => some ⟨sign, a.text, op.text, (t.value?.map Tree.text).getD []⟩
    | some a, none => some (ofName sign a.text)
    | none, _ => t.value?.map fun v => ofName sign v.text
  | some .argument | some (.literal _) => some (ofName none t.text)
  | _ => none

end QueryTag

end CardQuery
