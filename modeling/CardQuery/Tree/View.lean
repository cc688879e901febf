import CardQuery.Tree.Basic

/-!
# Parts of a tree

The parts that each kind of node is asked for: the domain and the queries of a program, the
operands and the keyword of a binary node, the sign, argument, comparison and value of a tag, and
the contents of literals. A part that is not there is `none`.
-/

set_option autoImplicit false

namespace CardQuery

/-! ## Literals -/

/-- A literal's text with its escapes resolved: a backslash is dropped and the character after it
kept. -/
def unescape : Text → Text
  | [] => []
  | '\\' :: c :: cs => c :: unescape cs
  | c :: cs => if c = '\\' then unescape cs else c :: unescape cs

/-- A text without the mark it starts with. -/
def dropOpening (mark : Char) (t : Text) : Text :=
  if t.head? = some mark then t.tail else t

/-- What the text of a string literal says: the quotes are dropped and the escapes resolved. A
quote at the end that follows a backslash is not a closing one. -/
def stringContents (t : Text) : Text :=
  let inner := dropOpening '"' t
  if inner.getLast? = some '"' ∧ ¬ ['\\', '"'].isSuffixOf inner then unescape inner.dropLast
  else unescape inner

/-- The pattern of a regular expression: its text without the slashes around it. -/
def regexPattern (t : Text) : Text :=
  let inner := dropOpening '/' t
  if inner.getLast? = some '/' then inner.dropLast else inner

namespace Tree

/-- The kind of a token that stands in the tree by itself. -/
def tokenKind? : Tree → Option TokenKind
  | .token t => some t.kind
  | .node _ _ => none

/-- The first child token that is not blank. -/
def firstToken? (t : Tree) : Option Token :=
  t.children.findSome? fun
    | .token t => if t.isBlank then none else some t
    | .node _ _ => none

/-- Whether a tree is a term when its parent is not a tag. -/
def isFreeTerm (t : Tree) : Bool :=
  t.kind?.any NodeKind.isTerm

/-! ## Programs -/

/-- The part of a program before its first named query. -/
def domain? (t : Tree) : Option Tree :=
  t.child? .domain

/-- The named queries of a program. -/
def queries (t : Tree) : List Tree :=
  t.children.filter (isKind .query)

/-- The name of a query. -/
def queryName? (t : Tree) : Option Tree :=
  t.child? .queryName

/-- The expressions of a query. -/
def queryBody? (t : Tree) : Option Tree :=
  t.child? .queryBody

/-! ## Binary nodes and clauses -/

/-- The left operand. -/
def left? (t : Tree) : Option Tree :=
  t.expressions[0]?

/-- The right operand. -/
def right? (t : Tree) : Option Tree :=
  t.expressions[1]?

/-- The keyword between the operands of a binary node; without one they are joined by `and`. -/
def keyword? (op : Connective) (t : Tree) : Option Token :=
  t.children.findSome? fun
    | .token t => if t.kind = .keyword op then some t else none
    | .node _ _ => none

/-- Whether a clause has its closing parenthesis. -/
def isClosed (t : Tree) : Bool :=
  t.children.any fun c => c.tokenKind? = some .rightParen

/-! ## Tags -/

/-- The minus sign of a tag. -/
def sign? (t : Tree) : Option Tree :=
  t.child? .sign

/-- The argument of a tag. -/
def argument? (t : Tree) : Option Tree :=
  t.child? .argument

/-- The comparison of a tag. -/
def operator? (t : Tree) : Option Tree :=
  t.child? .operator

/-- The value of a tag: a plain value, a string or a regular expression. -/
def value? (t : Tree) : Option Tree :=
  t.children.find? fun c => c.kind?.any NodeKind.isTagValue

/-- The kind of the comparison token. -/
def comparisonKind? (t : Tree) : Option TokenKind :=
  t.firstToken?.map Token.kind

/-- What a value says: a string without its quotes and escapes, anything else as it is written. -/
def unquoted (t : Tree) : Text :=
  match t.kind? with
  | some (.literal .string) => stringContents t.text
  | _ => t.text

end Tree

end CardQuery
