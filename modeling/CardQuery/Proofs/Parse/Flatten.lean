import CardQuery.Parse.Group

/-!
# What joining keeps

Joining items into a tree wraps trees in nodes and never drops or moves one. So whatever is listed
from left to right through the nodes that joining makes (`Flattens`) is, for a region, what it is
for its items.

Main statement: `Flattens.regionTrees`.
-/

set_option autoImplicit false

namespace CardQuery

/-- The trees that an item stands for before it is joined. -/
def Item.trees : Item → List Tree
  | .blank t | .keyword _ t | .opening t | .closing t => [.token t]
  | .term tree => [tree]

theorem regionTrees_nil : regionTrees [] = [] := rfl

/-- Whether a list made from trees reads from left to right through the nodes that joining makes. -/
structure Flattens {α : Type} (f : List Tree → List α) : Prop where
  append : ∀ xs ys, f (xs ++ ys) = f xs ++ f ys
  binary : ∀ op cs, f [.node (.binary op) cs] = f cs
  clause : ∀ cs, f [.node .clause cs] = f cs
  error : ∀ t, f [.leaf .error t] = f [.token t]

namespace Flattens

variable {α : Type} {f : List Tree → List α} (h : Flattens f)
include h

theorem nil : f [] = [] := by
  have happend := h.append [] []
  rwa [List.append_nil, List.self_eq_append_right] at happend

theorem cons (x y : Tree) (ys : List Tree) : f (x :: y :: ys) = f [x] ++ f (y :: ys) :=
  h.append [x] (y :: ys)

theorem closeOr (outer run : List Tree) : f (closeOr outer run) = f outer ++ f run := by
  cases outer <;> simp [CardQuery.closeOr, Tree.binary, h.nil, h.binary, ← h.append]

theorem addBlank (g : Group) (t : Token) :
    f (g.addBlank t).trees = f g.trees ++ f [.token t] := by
  rcases g with ⟨settled, chain⟩
  cases chain <;>
    simp [Group.addBlank, Group.trees, Chain.trees, Tree.binary, h.append, h.binary, h.closeOr]

theorem addTerm (g : Group) (tree : Tree) : f (g.addTerm tree).trees = f g.trees ++ f [tree] := by
  rcases g with ⟨settled, chain⟩
  cases chain <;>
    simp [Group.addTerm, Group.trees, Chain.trees, Tree.binary, h.append, h.nil, h.binary,
      h.closeOr]

theorem addKeyword (g : Group) (op : Connective) (t : Token) :
    f (g.addKeyword op t).trees = f g.trees ++ f [.token t] := by
  rcases g with ⟨settled, chain⟩
  cases op <;> cases chain <;>
    simp [Group.addKeyword, Group.addAnd, Group.addOr, Group.trees, Chain.trees, Tree.binary,
      h.append, h.cons, h.binary, h.error, h.closeOr]

theorem finishFrom (g : Group) (around : List Group) :
    f (Nest.finishFrom g around) = around.reverse.flatMap (fun g => f g.trees) ++ f g.trees := by
  induction around generalizing g with
  | nil => simp [Nest.finishFrom]
  | cons outer around ih =>
      rw [Nest.finishFrom, ih, h.addTerm, h.clause]
      simp

/-- A further item is listed behind all that was listed before. -/
theorem step (n : Nest) (i : Item) : f (n.step i).finish = f n.finish ++ f i.trees := by
  rcases n with ⟨g, around⟩
  cases i with
  | blank t => simp [Nest.step, Nest.finish, h.finishFrom, h.addBlank, Item.trees]
  | keyword op t => simp [Nest.step, Nest.finish, h.finishFrom, h.addKeyword, Item.trees]
  | term tree => simp [Nest.step, Nest.finish, h.finishFrom, h.addTerm, Item.trees]
  | opening t =>
      simp [Nest.step, Nest.finish, h.finishFrom, Group.ofTrees, Group.trees, Chain.trees,
        Item.trees]
  | closing t =>
      cases around with
      | nil => simp [Nest.step, Nest.finish, Nest.finishFrom, h.addTerm, h.error, Item.trees]
      | cons outer around =>
          simp [Nest.step, Nest.finish, h.finishFrom, h.addTerm, h.clause, h.append, Item.trees]

theorem foldl_step (n : Nest) (is : List Item) :
    f (is.foldl Nest.step n).finish = f n.finish ++ is.flatMap fun i => f i.trees := by
  induction is generalizing n with
  | nil => simp
  | cons i is ih => rw [List.foldl_cons, ih, h.step, List.flatMap_cons, List.append_assoc]

/-- **What is listed of a region is what is listed of its items.** -/
theorem regionTrees (ts : List Token) :
    f (regionTrees ts) = (items ts).flatMap fun i => f i.trees := by
  have hstart : f Nest.start.finish = [] := h.nil
  rw [CardQuery.regionTrees, h.foldl_step, hstart, List.nil_append]

end Flattens

end CardQuery
