import CardQuery.Query.Residue
import CardQuery.Tree.Focus

/-!
# Query documents

What a whole text asks, in its own spelling: the domain that all queries share and the queries,
each with its place in the text and its settings apart from its filter.
-/

set_option autoImplicit false

namespace CardQuery

/-- A region of the text: the domain or the body of a query. -/
structure Segment where
  /-- The text, without blanks at its ends. -/
  text : Text
  /-- The text without the settings. -/
  filter : Text
  start : Nat
  stop : Nat
  settings : QuerySettings
  deriving DecidableEq, Repr

/-- The name of a query and its place. -/
structure QueryName where
  text : Text
  start : Nat
  stop : Nat
  deriving DecidableEq, Repr

/-- A query. The query of a text without headers has no name. -/
structure Query where
  name : Option QueryName
  body : Segment
  deriving DecidableEq, Repr

/-- The queries of a text. -/
structure QueryDocument where
  domain : Option Segment
  queries : List Query
  deriving DecidableEq, Repr

namespace Segment

/-- The segment of a region. -/
def ofRegion (region : Focus) : Segment :=
  let span := region.trimmedSpan
  let stripped := region.tree.stripRegion
  ⟨tokensText (trimTokens region.tree.tokens), residualText stripped.kept, span.start, span.stop,
    .ofList stripped.settings⟩

/-- A segment with nothing in it. -/
def emptyAt (offset : Nat) : Segment :=
  ⟨[], [], offset, offset, .empty⟩

/-- The range of a segment; a segment that ends before it starts has none. -/
def span? (s : Segment) : Option Span :=
  if s.start ≤ s.stop then some ⟨s.start, s.stop⟩ else none

end Segment

namespace Query

/-- The query of a query node. -/
def ofNode (query : Focus) : Query :=
  let name := (query.child? .queryName).map fun n => ⟨n.tree.text, n.start, n.stop⟩
  ⟨name, ((query.child? .queryBody).map Segment.ofRegion).getD (.emptyAt query.stop)⟩

end Query

namespace QueryDocument

/-- The queries of a tree. A tree that is not a program has none. -/
def ofTree (t : Tree) : QueryDocument :=
  let root : Focus := ⟨t, 0, []⟩
  if t.kind? ≠ some .program then ⟨none, []⟩
  else if t.queries.isEmpty then
    let body := Segment.ofRegion root
    ⟨none, if body.text.isEmpty then [] else [⟨none, body⟩]⟩
  else
    let domain := (root.child? .domain).map Segment.ofRegion
    ⟨domain.filter fun d => !d.text.isEmpty,
      (root.children.filter fun c => c.tree.isKind .query).map Query.ofNode⟩

end QueryDocument

end CardQuery
