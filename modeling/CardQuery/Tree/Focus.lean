import CardQuery.Tree.View

/-!
# Places in a tree

A `Focus` is a subtree seen from where it stands: it knows the byte at which the subtree starts
and, step by step, what stands around it up to the root. `Tree.focuses` lists the places of a tree
in preorder, and `Tree.tokensAt` finds the tokens that touch a byte offset. Going up from a place
(`Focus.up?`) puts the subtree back between its neighbours, so nothing of the tree is lost.
-/

set_option autoImplicit false

namespace CardQuery

/-- One step from a node down to a child: the node's kind and start, and the children around the
chosen one. -/
structure Step where
  kind : NodeKind
  start : Nat
  before : List Tree
  after : List Tree
  deriving Repr

/-- The parent node with a child put in its place. -/
def Step.fill (s : Step) (t : Tree) : Tree :=
  .node s.kind (s.before ++ t :: s.after)

/-- The other children of the parent that are expressions. -/
def Step.siblings (s : Step) : List Tree :=
  s.before.filter Tree.isExpression ++ s.after.filter Tree.isExpression

/-- A subtree, the byte where it starts, and the steps above it, the nearest first. -/
structure Focus where
  tree : Tree
  start : Nat
  above : List Step
  deriving Repr

namespace Focus

/-- The byte where the subtree ends. -/
def stop (f : Focus) : Nat :=
  f.start + f.tree.width

/-- The range of bytes of the subtree. -/
def span (f : Focus) : Span :=
  ⟨f.start, f.stop⟩

/-- The range of the subtree without the blanks at its ends; when there is nothing else in it,
the empty range at its start. -/
def trimmedSpan (f : Focus) : Span :=
  let solid := (placeTokens f.start f.tree.tokens).filter fun p => !p.token.isBlank
  match solid.head?, solid.getLast? with
  | some first, some last => ⟨first.start, last.span.stop⟩
  | _, _ => ⟨f.start, f.start⟩

/-- The parent of a place. -/
def up? (f : Focus) : Option Focus :=
  match f.above with
  | [] => none
  | s :: rest => some ⟨s.fill f.tree, s.start, rest⟩

/-- The kind of the parent. -/
def parentKind? (f : Focus) : Option NodeKind :=
  f.above.head?.map Step.kind

/-- The places of the parent, its parent and so on, for a subtree with these steps above it. -/
def ancestorsFrom (t : Tree) : List Step → List Focus
  | [] => []
  | s :: rest => ⟨s.fill t, s.start, rest⟩ :: ancestorsFrom (s.fill t) rest

/-- The parent, its parent and so on up to the root. -/
def ancestors (f : Focus) : List Focus :=
  ancestorsFrom f.tree f.above

/-- Whether the subtree is a term: a tag, or a word or literal outside any tag. -/
def isTerm (f : Focus) : Bool :=
  match f.tree.kind? with
  | some .tag => true
  | some .argument | some (.literal _) => f.parentKind? ≠ some .tag
  | _ => false

/-- The places of the children `cs` of a node, which stand after the children `before`. -/
def childrenFrom (above : List Step) (k : NodeKind) (nodeStart : Nat) (before : List Tree)
    (start : Nat) : List Tree → List Focus
  | [] => []
  | c :: cs =>
    ⟨c, start, ⟨k, nodeStart, before, cs⟩ :: above⟩
      :: childrenFrom above k nodeStart (before ++ [c]) (start + c.width) cs

/-- The places of the children. -/
def children (f : Focus) : List Focus :=
  match f.tree with
  | .token _ => []
  | .node k cs => childrenFrom f.above k f.start [] f.start cs

/-- The first child of a kind. -/
def child? (k : NodeKind) (f : Focus) : Option Focus :=
  f.children.find? fun c => c.tree.isKind k

/-- The value of a tag. -/
def value? (f : Focus) : Option Focus :=
  f.children.find? fun c => c.tree.kind?.any NodeKind.isTagValue

end Focus

namespace Tree

mutual

/-- The places of a subtree in preorder, the subtree itself first. -/
def focusesFrom (above : List Step) (start : Nat) : Tree → List Focus
  | .token t => [⟨.token t, start, above⟩]
  | .node k cs => ⟨.node k cs, start, above⟩ :: focusesOf above k start [] start cs

/-- The places in the children of a node, from the child after `before` on. -/
def focusesOf (above : List Step) (k : NodeKind) (nodeStart : Nat) (before : List Tree)
    (start : Nat) : List Tree → List Focus
  | [] => []
  | c :: cs =>
    focusesFrom (⟨k, nodeStart, before, cs⟩ :: above) start c
      ++ focusesOf above k nodeStart (before ++ [c]) (start + c.width) cs

end

/-- Every place of a tree, in preorder. -/
def focuses (t : Tree) : List Focus :=
  focusesFrom [] 0 t

/-- The places of the nodes of a tree, in preorder. -/
def nodes (t : Tree) : List Focus :=
  t.focuses.filter fun f => f.tree.isNode

/-- The places of the tokens of a tree, in order. -/
def leaves (t : Tree) : List Focus :=
  t.focuses.filter fun f => !f.tree.isNode

/-- The tokens that touch an offset: the one that starts there or has the offset inside it, and
then the one that ends there. -/
def tokensAt (t : Tree) (offset : Nat) : List Focus :=
  t.leaves.filter (fun f => f.start ≤ offset && offset < f.stop)
    ++ t.leaves.filter (fun f => f.start < offset && offset == f.stop)

end Tree

end CardQuery
