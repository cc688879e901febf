import CardQuery.Expr.Tag

/-!
# Expressions

What a query asks, without its spelling: tags joined by `and` and `or`, and clauses where the
text has parentheses.
-/

set_option autoImplicit false

namespace CardQuery

/-- An expression over tags. -/
inductive Expr
  | tag (t : QueryTag)
  | binary (op : Connective) (left right : Expr)
  | clause (content : Expr)
  deriving DecidableEq, Repr

namespace Expr

/-- The tags of an expression, from left to right. -/
def tags : Expr → List QueryTag
  | .tag t => [t]
  | .binary _ l r => l.tags ++ r.tags
  | .clause e => e.tags

/-- Expressions joined by one connective, leaning to the left. -/
def chain (op : Connective) (first : Expr) (rest : List Expr) : Expr :=
  rest.foldl (.binary op) first

/-- Expressions that all hold together; nothing when there are none. -/
def all? : List Expr → Option Expr
  | [] => none
  | e :: es => some (chain .and e es)

/-- Two expressions joined; when one is missing, the other. -/
def combine? (op : Connective) : Option Expr → Option Expr → Option Expr
  | some l, some r => some (.binary op l r)
  | some l, none => some l
  | none, r => r

end Expr

end CardQuery
