import CardQuery.Expr.Basic

/-!
# The expression of a tree

`Tree.lower` gives the expression that a node stands for. Blanks and errors stand for nothing. A
binary node with one operand left stands for that operand, and a region or a clause with several
expressions for all of them together.
-/

set_option autoImplicit false

namespace CardQuery

namespace Tree

mutual

/-- The expression of an expression node. -/
def lower : Tree → Option Expr
  | .token _ => none
  | .node k cs =>
    match k with
    | .tag | .argument | .literal _ => (QueryTag.ofTerm? (.node k cs)).map .tag
    | .clause => (Expr.all? ((lowerEach cs).filterMap id)).map .clause
    | .binary op =>
      let operands := lowerEach cs
      Expr.combine? op operands[0]?.join operands[1]?.join
    | _ => none

/-- The expression of each child that is an expression node. -/
def lowerEach : List Tree → List (Option Expr)
  | [] => []
  | c :: cs => if c.isExpression then lower c :: lowerEach cs else lowerEach cs

end

/-- The expression of a region: all its expressions together. -/
def lowerRegion (t : Tree) : Option Expr :=
  Expr.all? ((lowerEach t.children).filterMap id)

/-- The expression of any node: a region, a query, which is its body, or an expression node. -/
def expr? (t : Tree) : Option Expr :=
  match t.kind? with
  | some .program | some .domain | some .queryBody => t.lowerRegion
  | some .query => t.queryBody?.bind lowerRegion
  | _ => t.lower

theorem lowerEach_eq_map (cs : List Tree) :
    lowerEach cs = (cs.filter isExpression).map lower := by
  induction cs with
  | nil => simp [lowerEach]
  | cons c cs ih => by_cases h : c.isExpression <;> simp [lowerEach, h, ih]

end Tree

end CardQuery
