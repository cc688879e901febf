import CardQuery.Tree.Basic

/-!
# Kinds by number

Tokens and nodes share one numbering, in which an unknown token and an error node have the same
number. `Kind` is a kind of either, with what can be asked of both.
-/

set_option autoImplicit false

namespace CardQuery

/-- A kind of token or of node. -/
inductive Kind
  | token (k : TokenKind)
  | node (k : NodeKind)
  deriving DecidableEq, Repr

namespace Kind

/-- Every kind in the order of its number; the last stands for whatever is wrong. -/
def every : List Kind :=
  [.token .blank, .token .word, .token (.literal .string), .token (.literal .regex),
   .token .leftParen, .token .rightParen, .token .minus, .token (.comparison .colon),
   .token (.comparison .equal), .token (.comparison .notEqual), .token (.comparison .less),
   .token (.comparison .greater), .token (.comparison .lessEqual),
   .token (.comparison .greaterEqual), .token (.keyword .and), .token (.keyword .or),
   .node .program, .node .domain, .node .query, .node .queryName, .node .queryBody, .node .tag,
   .node .sign, .node .argument, .node .operator, .node .value, .node (.literal .string),
   .node (.literal .regex), .node .clause, .node (.binary .and), .node (.binary .or),
   .node .error]

/-- The kind with a number; numbers from 32 on have none. -/
def ofNumber? (n : Nat) : Option Kind :=
  every[n]?

/-- Whether a kind separates others. -/
def isBlank : Kind → Bool
  | .token .blank => true
  | _ => false

/-- Whether a kind is a comparison. -/
def isComparison : Kind → Bool
  | .token k => k.isComparison
  | .node _ => false

/-- Whether a kind is a keyword. -/
def isKeyword : Kind → Bool
  | .token k => k.isKeyword
  | .node _ => false

/-- Whether a kind is a word or a literal. -/
def isWordOrLiteral : Kind → Bool
  | .token .word | .token (.literal _) => true
  | _ => false

/-- Whether a kind of node satisfies a test; tokens satisfy none. -/
def nodeSatisfies (p : NodeKind → Bool) : Kind → Bool
  | .token _ => false
  | .node k => p k

end Kind

end CardQuery
