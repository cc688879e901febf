import CardQuery.Expr.Lowering
import CardQuery.Expr.Normal
import CardQuery.Expr.Printer

/-!
# Documents

What a whole text asks: the expression that all its queries share, and the queries with their
names. A text with no header has at most one query, which has no name.
-/

set_option autoImplicit false

namespace CardQuery

/-- A query of a document. -/
structure DocumentEntry where
  name : Option Text
  expr : Option Expr
  deriving DecidableEq, Repr

/-- The expressions of a whole text. -/
structure Document where
  domain : Option Expr
  entries : List DocumentEntry
  deriving DecidableEq, Repr

namespace Document

/-- The document of a tree. A tree that is not a program has an empty one. -/
def ofTree (t : Tree) : Document :=
  if t.kind? ≠ some .program then ⟨none, []⟩
  else if t.queries.isEmpty then
    ⟨none, t.lowerRegion.toList.map fun e => ⟨none, some e⟩⟩
  else
    ⟨t.domain?.bind Tree.lowerRegion,
      t.queries.map fun q => ⟨q.queryName?.map Tree.text, q.queryBody?.bind Tree.lowerRegion⟩⟩

/-- A document with every expression in normal form. -/
def normalized (d : Document) : Document :=
  ⟨d.domain.map Expr.normalized,
    d.entries.map fun q => ⟨q.name, q.expr.map Expr.normalized⟩⟩

/-- The line of a query; nothing for a query with neither name nor expression. -/
def entryLine? (q : DocumentEntry) : Option Text :=
  match q.name, q.expr with
  | some name, some e => some (name ++ [':', ' '] ++ e.text)
  | some name, none => some (name ++ [':'])
  | none, some e => some e.text
  | none, none => none

/-- The text of a document: the shared expression on the first line, then a line for each
query. -/
def text (d : Document) : Text :=
  Text.join ['\n'] (d.domain.toList.map Expr.text ++ d.entries.filterMap entryLine?)

end Document

end CardQuery
