import CardQuery.Proofs.Tree.Defect
import CardQuery.Tree.Focus

/-!
# The nodes of some kinds

`Tree.nodesOf` lists the nodes of a tree whose kinds are asked for, in preorder and by recursion on
the tree. It forgets where they stand.

Main statement: these are the nodes that are found among the places of the tree
(`Tree.map_tree_nodes`).
-/

set_option autoImplicit false

namespace CardQuery

open CardQuery.Tree (AllOf)

namespace Tree

mutual

/-- The nodes of certain kinds in a tree, in preorder. -/
def nodesOf (q : NodeKind → Bool) : Tree → List Tree
  | .token _ => []
  | .node k cs => (if q k then [.node k cs] else []) ++ nodesOfEach q cs

/-- The nodes of certain kinds in several trees, in preorder. -/
def nodesOfEach (q : NodeKind → Bool) : List Tree → List Tree
  | [] => []
  | c :: cs => c.nodesOf q ++ nodesOfEach q cs

end

variable {q : NodeKind → Bool}

@[simp] theorem nodesOf_token (t : Token) : (token t).nodesOf q = [] := by
  simp [nodesOf]

theorem nodesOf_node (k : NodeKind) (cs : List Tree) :
    (node k cs).nodesOf q = (if q k then [node k cs] else []) ++ nodesOfEach q cs := by
  simp [nodesOf]

@[simp] theorem nodesOfEach_nil : nodesOfEach q [] = [] := by
  simp [nodesOfEach]

@[simp] theorem nodesOfEach_cons (c : Tree) (cs : List Tree) :
    nodesOfEach q (c :: cs) = c.nodesOf q ++ nodesOfEach q cs := by
  simp [nodesOfEach]

@[simp] theorem nodesOfEach_append (xs ys : List Tree) :
    nodesOfEach q (xs ++ ys) = nodesOfEach q xs ++ nodesOfEach q ys := by
  induction xs with
  | nil => simp
  | cons x xs ih => simp [ih]

@[simp] theorem nodesOfEach_map_token (ts : List Token) : nodesOfEach q (ts.map token) = [] := by
  induction ts with
  | nil => simp
  | cons t ts ih => simp [ih]

mutual

theorem map_tree_focusesFrom (above : List Step) (start : Nat) (t : Tree) :
    ((focusesFrom above start t).filter fun f => f.tree.kind?.any q).map Focus.tree
      = t.nodesOf q := by
  cases t with
  | token t => simp [focusesFrom, kind?]
  | node k cs =>
      have hcs := map_tree_focusesOf above k start [] start cs
      have hkind : (node k cs).kind? = some k := rfl
      rw [focusesFrom, List.filter_cons, nodesOf_node, ← hcs]
      by_cases hk : q k = true <;> simp [hkind, hk]

theorem map_tree_focusesOf (above : List Step) (k : NodeKind) (nodeStart : Nat)
    (before : List Tree) (start : Nat) (cs : List Tree) :
    ((focusesOf above k nodeStart before start cs).filter
      fun f => f.tree.kind?.any q).map Focus.tree = nodesOfEach q cs := by
  cases cs with
  | nil => simp [focusesOf]
  | cons c cs =>
      rw [focusesOf, List.filter_append, List.map_append, map_tree_focusesFrom,
        map_tree_focusesOf, nodesOfEach_cons]

end

/-- **The nodes of some kinds among the places of a tree are found by recursion on it.** -/
theorem map_tree_nodes (t : Tree) :
    (t.nodes.filter fun f => f.tree.kind?.any q).map Focus.tree = t.nodesOf q := by
  have hnode : ∀ f : Focus, (f.tree.kind?.any q && f.tree.isNode) = f.tree.kind?.any q := by
    intro f
    rw [isNode]
    cases f.tree.kind? <;> simp
  rw [nodes, focuses, List.filter_filter]
  simp only [hnode]
  exact map_tree_focusesFrom [] 0 t

mutual

/-- Formed nodes are of none of the outer kinds. -/
theorem nodesOf_of_formed (hq : ∀ k, q k = true → k.isOuter = true) {t : Tree}
    (h : t.All NodeKind.Formed) : t.nodesOf q = [] := by
  cases t with
  | token t => simp
  | node k cs =>
      rw [all_node] at h
      have hk : q k ≠ true := by
        intro hk
        have houter := hq k hk
        have hformed := h.1
        cases k <;> simp_all [NodeKind.isOuter, NodeKind.Formed]
      rw [nodesOf_node, if_neg hk, nodesOfEach_of_formed hq h.2, List.append_nil]

theorem nodesOfEach_of_formed (hq : ∀ k, q k = true → k.isOuter = true) {cs : List Tree}
    (h : AllOf NodeKind.Formed cs) : nodesOfEach q cs = [] := by
  cases cs with
  | nil => simp
  | cons c cs =>
      rw [allOf_cons] at h
      rw [nodesOfEach_cons, nodesOf_of_formed hq h.1, nodesOfEach_of_formed hq h.2,
        List.append_nil]

end

end Tree

end CardQuery
