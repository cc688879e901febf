import CardQuery.Expr.Basic

/-!
# The text of an expression

Operands of `and` are joined by a space and operands of `or` by the keyword. An operand that joins
by the other connective is put in parentheses, as is the content of a clause.
-/

set_option autoImplicit false

namespace CardQuery

namespace Expr

/-- What stands between the operands of a connective. -/
def separator : Connective → Text
  | .and => [' ']
  | .or => [' ', 'o', 'r', ' ']

/-- Whether an operand of `op` has to stand in parentheses. -/
def needsParens (op : Connective) : Expr → Bool
  | .binary inner _ _ => inner ≠ op
  | _ => false

/-- A text in parentheses. -/
def inParens (t : Text) : Text :=
  '(' :: t ++ [')']

/-- The text of an expression. -/
def text : Expr → Text
  | .tag t => t.text
  | .clause e => inParens e.text
  | .binary op l r =>
    (if needsParens op l then inParens l.text else l.text) ++ separator op
      ++ (if needsParens op r then inParens r.text else r.text)

end Expr

end CardQuery
