import CardQuery.Text.LineIndex
import CardQuery.Tree.Focus

/-!
# Folding

The clauses and queries that span more than one line can be folded.
-/

set_option autoImplicit false

namespace CardQuery

/-- What is folded. -/
inductive FoldKind
  | clause
  | query
  deriving DecidableEq, Repr

/-- The first and last line of something that can be folded. -/
structure Fold where
  startLine : Nat
  endLine : Nat
  kind : FoldKind
  deriving DecidableEq, Repr

/-- What a kind of node is folded as. -/
def NodeKind.foldKind? : NodeKind → Option FoldKind
  | .clause => some .clause
  | .query => some .query
  | _ => none

/-- The fold of a place, if it is a clause or a query of several lines. -/
def Focus.fold? (index : LineIndex) (f : Focus) : Option Fold := do
  let kind ← f.tree.kind?.bind NodeKind.foldKind?
  let span := f.trimmedSpan
  let first := (index.position span.start).line
  let last := (index.position span.stop).line
  if first < last then some ⟨first, last, kind⟩ else none

/-- The folds of a tree, in preorder. -/
def Tree.folds (t : Tree) (index : LineIndex) : List Fold :=
  t.nodes.filterMap (Focus.fold? index)

end CardQuery
