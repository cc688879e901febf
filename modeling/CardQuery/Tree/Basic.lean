import CardQuery.Token.Basic

/-!
# Syntax trees

A syntax tree has tokens for leaves and keeps every token of the text, blanks included, so the
text of a tree is the text it was read from. Nodes carry no positions: where a node starts follows
from the widths of what stands before it.
-/

set_option autoImplicit false

namespace CardQuery

/-- What a node of the tree is. -/
inductive NodeKind
  /-- The whole text. -/
  | program
  /-- The expressions before the first named query. -/
  | domain
  /-- A named query. -/
  | query
  /-- The name of a query. -/
  | queryName
  /-- The expressions of a named query. -/
  | queryBody
  /-- An argument with its comparison and value, or a term with a minus sign. -/
  | tag
  /-- The minus sign of a tag. -/
  | sign
  /-- A word that asks for something, or that stands alone. -/
  | argument
  /-- The comparison of a tag. -/
  | operator
  /-- The unquoted value of a tag. -/
  | value
  /-- A string or a regular expression. -/
  | literal (kind : LiteralKind)
  /-- An expression in parentheses. -/
  | clause
  /-- Two expressions joined. -/
  | binary (op : Connective)
  /-- Tokens that fit nowhere. -/
  | error
  deriving DecidableEq, Repr

namespace NodeKind

/-- Whether the children of a node are expressions that all hold together. -/
def isRegion : NodeKind → Bool
  | .program | .domain | .queryBody => true
  | _ => false

/-- Whether a node is an expression. -/
def isExpression : NodeKind → Bool
  | .tag | .argument | .literal _ | .clause | .binary _ => true
  | _ => false

/-- Whether a node is an expression that holds no other expression. -/
def isTerm : NodeKind → Bool
  | .tag | .argument | .literal _ => true
  | _ => false

/-- Whether a node can be the value of a tag. -/
def isTagValue : NodeKind → Bool
  | .value | .literal _ => true
  | _ => false

end NodeKind

/-- A syntax tree. -/
inductive Tree
  | token (t : Token)
  | node (kind : NodeKind) (children : List Tree)
  deriving Repr

namespace Tree

mutual

/-- The tokens of a tree, in order. -/
def tokens : Tree → List Token
  | .token t => [t]
  | .node _ cs => tokensOf cs

/-- The tokens of several trees, in order. -/
def tokensOf : List Tree → List Token
  | [] => []
  | c :: cs => c.tokens ++ tokensOf cs

end

mutual

/-- The number of bytes of a tree. -/
def width : Tree → Nat
  | .token t => t.width
  | .node _ cs => widthOf cs

/-- The number of bytes of several trees. -/
def widthOf : List Tree → Nat
  | [] => 0
  | c :: cs => c.width + widthOf cs

end

/-- The text of a tree. -/
def text (t : Tree) : Text :=
  tokensText t.tokens

/-- The children of a tree; a token has none. -/
def children : Tree → List Tree
  | .token _ => []
  | .node _ cs => cs

/-- The kind of a node. -/
def kind? : Tree → Option NodeKind
  | .token _ => none
  | .node k _ => some k

/-- Whether a tree is a node of a kind. -/
def isKind (k : NodeKind) (t : Tree) : Bool :=
  t.kind? = some k

theorem exists_node_of_isKind {k : NodeKind} {t : Tree} (h : t.isKind k = true) :
    ∃ cs, t = .node k cs := by
  cases t with
  | token x => cases h
  | node j cs => exact ⟨cs, by simpa [isKind, kind?] using h⟩

/-- Whether a tree is a node, not a token. -/
def isNode (t : Tree) : Bool :=
  t.kind?.isSome

/-- Whether a tree is an expression. -/
def isExpression (t : Tree) : Bool :=
  t.kind?.any NodeKind.isExpression

/-- The children that are expressions. -/
def expressions (t : Tree) : List Tree :=
  t.children.filter isExpression

/-- The first child of a kind. -/
def child? (k : NodeKind) (t : Tree) : Option Tree :=
  t.children.find? (isKind k)

@[simp] theorem tokens_token (t : Token) : (token t).tokens = [t] := by
  simp [tokens]

@[simp] theorem tokens_node (k : NodeKind) (cs : List Tree) :
    (node k cs).tokens = tokensOf cs := by
  simp [tokens]

@[simp] theorem tokensOf_nil : tokensOf [] = [] := by
  simp [tokensOf]

@[simp] theorem tokensOf_cons (c : Tree) (cs : List Tree) :
    tokensOf (c :: cs) = c.tokens ++ tokensOf cs := by
  simp [tokensOf]

@[simp] theorem tokensOf_append (xs ys : List Tree) :
    tokensOf (xs ++ ys) = tokensOf xs ++ tokensOf ys := by
  induction xs with
  | nil => simp
  | cons x xs ih => simp [ih]

@[simp] theorem tokensOf_map_token (ts : List Token) : tokensOf (ts.map token) = ts := by
  induction ts with
  | nil => simp
  | cons t ts ih => simp [ih]

theorem widthOf_append (xs ys : List Tree) :
    widthOf (xs ++ ys) = widthOf xs + widthOf ys := by
  induction xs with
  | nil => simp [widthOf]
  | cons x xs ih => simp [widthOf, ih, Nat.add_assoc]

mutual

theorem tokensWidth_tokens (t : Tree) : tokensWidth t.tokens = t.width := by
  cases t with
  | token t => simp [width, tokensWidth]
  | node k cs => simpa [width] using tokensWidth_tokensOf cs

theorem tokensWidth_tokensOf (cs : List Tree) : tokensWidth (tokensOf cs) = widthOf cs := by
  cases cs with
  | nil => simp [widthOf, tokensWidth]
  | cons c cs =>
    rw [tokensOf_cons, tokensWidth_append, tokensWidth_tokens c, tokensWidth_tokensOf cs, widthOf]

end

end Tree

end CardQuery
