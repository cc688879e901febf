import CardQuery.Expr.Basic

/-!
# Normal form

Two expressions that differ only in their parentheses, and in how a row of equal connectives is
nested, have the same normal form. It has no clauses, and every row leans to the left.
-/

set_option autoImplicit false

namespace CardQuery

namespace Expr

/-- The operands, in normal form, of the row of `op` that an expression is: the first and the
others. An expression that is no such row is its own only operand. -/
def operands (op : Connective) : Expr → Expr × List Expr
  | .tag t => (.tag t, [])
  | .clause e => operands op e
  | .binary inner l r =>
    let (a, as) := operands inner l
    let (b, bs) := operands inner r
    if inner = op then (a, as ++ b :: bs) else (chain inner a (as ++ b :: bs), [])

/-- The normal form of an expression. -/
def normalized (e : Expr) : Expr :=
  chain .and (operands .and e).1 (operands .and e).2

end Expr

end CardQuery
