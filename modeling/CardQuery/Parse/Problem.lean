import CardQuery.Tree.View

/-!
# What is wrong with a text

Reading never fails, and everything that is wrong with a text shows in its tree: error nodes,
nodes that lack a part, and literals that are not closed. `problemsFrom` reads the problems off the
tree in the order of the text. A problem with what a node is stands at the node's start, and a
missing part at the node's end, where it was expected; `syntaxErrors` then marks the token that
stands there.
-/

set_option autoImplicit false

namespace CardQuery

/-- What can be wrong. -/
inductive Problem
  | termBeforeKeyword
  | termAfter (op : Connective)
  | unmatchedParen
  | negatedClause
  | unexpectedCharacter
  | missingArgument
  | missingValue
  | termAfterMinus
  | unterminated (kind : LiteralKind)
  | missingParen
  deriving DecidableEq, Repr

/-- The message for a problem. -/
def Problem.message : Problem → String
  | .termBeforeKeyword => "expected a term before boolean operator"
  | .termAfter .and => "expected a term after 'and'"
  | .termAfter .or => "expected a term after 'or'"
  | .unmatchedParen => "unmatched ')'"
  | .negatedClause => "a clause cannot be negated"
  | .unexpectedCharacter => "unexpected character"
  | .missingArgument => "expected an argument before operator"
  | .missingValue => "expected a value"
  | .termAfterMinus => "expected a term after '-'"
  | .unterminated .string => "unterminated string literal"
  | .unterminated .regex => "unterminated regular expression"
  | .missingParen => "expected ')'"

/-- Whether a literal's text ends with its mark, and that mark is not escaped: an even number of
backslashes stands before it. -/
def isClosedLiteral (kind : LiteralKind) (t : Text) : Bool :=
  match t with
  | [] => false
  | c :: rest =>
    c = kind.mark && rest.getLast? = some kind.mark
      && (rest.dropLast.reverse.takeWhile (· = '\\')).length % 2 = 0

/-- What is wrong with a token that stands in an error node. -/
def TokenKind.problem? : TokenKind → Option Problem
  | .keyword _ => some .termBeforeKeyword
  | .rightParen => some .unmatchedParen
  | .minus => some .negatedClause
  | .unknown => some .unexpectedCharacter
  | .comparison _ => some .missingArgument
  | _ => none

/-- What is wrong at the start of a node with these children. -/
def openingProblem? (k : NodeKind) (cs : List Tree) : Option Problem :=
  match k, (Tree.tokensOf cs).head? with
  | .error, some t => t.kind.problem?
  | .literal kind, some t => if isClosedLiteral kind t.text then none else some (.unterminated kind)
  | _, _ => none

/-- What is missing at the end of a node with these children. -/
def closingProblem? (k : NodeKind) (cs : List Tree) : Option Problem :=
  let nodes := cs.filterMap Tree.kind?
  match k with
  | .binary op => if nodes.length < 2 then some (.termAfter op) else none
  | .clause => if (Tree.node k cs).isClosed then none else some .missingParen
  | .tag =>
    if nodes = [.sign] then some .termAfterMinus
    else if nodes.contains .operator ∧ ¬ nodes.any NodeKind.isTagValue then some .missingValue
    else none
  | _ => none

/-- A problem and the byte it stands at. -/
structure PlacedProblem where
  problem : Problem
  start : Nat
  deriving DecidableEq, Repr

mutual

/-- The problems of a tree that starts at a byte. -/
def problemsFrom (start : Nat) : Tree → List PlacedProblem
  | .token _ => []
  | .node k cs =>
    ((openingProblem? k cs).toList.map fun p => ⟨p, start⟩)
      ++ problemsOf start cs
      ++ ((closingProblem? k cs).toList.map fun p => ⟨p, start + Tree.widthOf cs⟩)

/-- The problems of several trees, the first of which starts at a byte. -/
def problemsOf (start : Nat) : List Tree → List PlacedProblem
  | [] => []
  | c :: cs => problemsFrom start c ++ problemsOf (start + c.width) cs

end

/-- A problem and the range of bytes it is shown at. -/
structure SyntaxError where
  problem : Problem
  span : Span
  deriving DecidableEq, Repr

/-- The range of the token that starts at a byte; at the end of the text, the empty range. -/
def spanAt (ps : List PlacedToken) (start : Nat) : Span :=
  match ps.find? fun p => p.start = start with
  | some p => p.span
  | none => ⟨start, start⟩

/-- The syntax errors of a tree, in the order of the text. -/
def syntaxErrors (t : Tree) : List SyntaxError :=
  (problemsFrom 0 t).map fun p => ⟨p.problem, spanAt (placeTokens 0 t.tokens) p.start⟩

end CardQuery
