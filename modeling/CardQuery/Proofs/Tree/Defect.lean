import CardQuery.Parse.Problem
import CardQuery.Proofs.Token.Literal

/-!
# Defects of a tree

A *defect* is something in a tree that no tree of a correct text has: an error node, a node that
lacks a part, or a literal that is not closed. Defects are counted node by node, and without a look
at the problems that are read off the tree.

A node of a tree that was read is *formed*, whatever is wrong with the text: its children are of
the kinds that its own kind allows. Main statement: a tree of formed nodes has as many problems as
defects (`length_problemsFrom`).
-/

set_option autoImplicit false

namespace CardQuery

namespace Tree

/-! ## Properties of every node -/

mutual

/-- Whether a property holds for every node of a tree. -/
def All (p : NodeKind → List Tree → Prop) : Tree → Prop
  | .token _ => True
  | .node k cs => p k cs ∧ AllOf p cs

/-- Whether a property holds for every node of several trees. -/
def AllOf (p : NodeKind → List Tree → Prop) : List Tree → Prop
  | [] => True
  | c :: cs => c.All p ∧ AllOf p cs

end

variable {p q : NodeKind → List Tree → Prop}

@[simp] theorem all_token (t : Token) : (token t).All p ↔ True := by
  simp [All]

@[simp] theorem all_node (k : NodeKind) (cs : List Tree) :
    (node k cs).All p ↔ p k cs ∧ AllOf p cs := by
  simp [All]

@[simp] theorem allOf_nil : AllOf p [] ↔ True := by
  simp [AllOf]

@[simp] theorem allOf_cons (c : Tree) (cs : List Tree) :
    AllOf p (c :: cs) ↔ c.All p ∧ AllOf p cs := by
  simp [AllOf]

@[simp] theorem allOf_append (xs ys : List Tree) :
    AllOf p (xs ++ ys) ↔ AllOf p xs ∧ AllOf p ys := by
  induction xs with
  | nil => simp
  | cons x xs ih => simp [ih, and_assoc]

theorem allOf_iff_forall {cs : List Tree} : AllOf p cs ↔ ∀ c ∈ cs, c.All p := by
  induction cs with
  | nil => simp
  | cons c cs ih => rw [allOf_cons, List.forall_mem_cons, ih]

@[simp] theorem allOf_map_token (ts : List Token) : AllOf p (ts.map token) := by
  induction ts with
  | nil => simp
  | cons t ts ih => simp [ih]

mutual

theorem All.imp (h : ∀ k cs, p k cs → q k cs) {t : Tree} (ht : t.All p) : t.All q := by
  cases t with
  | token t => simp
  | node k cs =>
      rw [all_node] at ht ⊢
      exact ⟨h k cs ht.1, AllOf.imp h ht.2⟩

theorem AllOf.imp (h : ∀ k cs, p k cs → q k cs) {cs : List Tree} (hcs : AllOf p cs) :
    AllOf q cs := by
  cases cs with
  | nil => simp
  | cons c cs =>
      rw [allOf_cons] at hcs ⊢
      exact ⟨All.imp h hcs.1, AllOf.imp h hcs.2⟩

end

/-! ## Defects -/

/-- The number of children that are nodes. -/
def nodeCount (cs : List Tree) : Nat :=
  (cs.filter isNode).length

@[simp] theorem nodeCount_nil : nodeCount [] = 0 := rfl

@[simp] theorem nodeCount_cons_token (t : Token) (cs : List Tree) :
    nodeCount (token t :: cs) = nodeCount cs := rfl

@[simp] theorem nodeCount_cons_node (k : NodeKind) (ds cs : List Tree) :
    nodeCount (node k ds :: cs) = nodeCount cs + 1 := rfl

@[simp] theorem nodeCount_append (xs ys : List Tree) :
    nodeCount (xs ++ ys) = nodeCount xs + nodeCount ys := by
  simp [nodeCount]

theorem length_expressions_le (cs : List Tree) :
    (cs.filter isExpression).length ≤ nodeCount cs := by
  induction cs with
  | nil => simp
  | cons c cs ih =>
      cases c with
      | token t => simpa [isExpression, kind?] using ih
      | node k ds =>
          rw [List.filter_cons, nodeCount_cons_node]
          split
          · simpa using ih
          · omega

/-- Whether a tree is the token of a closing parenthesis. -/
def isRightParen (t : Tree) : Bool :=
  t.tokenKind? = some .rightParen

/-- Whether a tree can be the value of a tag. -/
def isTagValue (t : Tree) : Bool :=
  t.kind?.any NodeKind.isTagValue

end Tree

/-- The defects of a node with these children, without those of the children. -/
def NodeKind.defects (k : NodeKind) (cs : List Tree) : Nat :=
  match k with
  | .error => 1
  | .binary _ => if Tree.nodeCount cs = 1 then 1 else 0
  | .clause => if cs.any Tree.isRightParen then 0 else 1
  | .tag =>
    (if cs.any (Tree.isKind .operator) ∧ ¬ cs.any Tree.isTagValue then 1 else 0)
      + (if cs.map Tree.kind? = [some .sign] then 1 else 0)
  | .literal kind => if isTerminated kind (tokensText (Tree.tokensOf cs)) then 0 else 1
  | _ => 0

namespace Tree

mutual

/-- The number of defects of a tree. -/
def defects : Tree → Nat
  | .token _ => 0
  | .node k cs => k.defects cs + defectsOf cs

/-- The number of defects of several trees. -/
def defectsOf : List Tree → Nat
  | [] => 0
  | c :: cs => c.defects + defectsOf cs

end

end Tree

/-! ## Formed nodes -/

/-- Whether a node stands above the expressions of a text. -/
def NodeKind.isOuter : NodeKind → Bool
  | .program | .domain | .query | .queryName | .queryBody => true
  | _ => false

/-- Whether a node is a part of a tag that holds tokens as they are. -/
def NodeKind.isPlain : NodeKind → Bool
  | .sign | .argument | .operator | .value => true
  | _ => false

/-- What is known about the children of a node below a region, whatever is wrong with the text. -/
def NodeKind.Formed (k : NodeKind) (cs : List Tree) : Prop :=
  match k with
  | .binary _ => Tree.nodeCount cs = 1 ∨ Tree.nodeCount cs = 2
  | .literal kind => ∃ t : Token, cs = [.token t] ∧ t.kind = .literal kind ∧ t.IsLexeme
  | .error => ∃ t p, (Tree.tokensOf cs).head? = some t ∧ t.kind.problem? = some p
  | .tag => ∀ c ∈ cs, c.isNode = true
  | _ => k.isOuter = false

/-- Whether a node stands above expressions or is formed. -/
def NodeKind.OuterOrFormed (k : NodeKind) (cs : List Tree) : Prop :=
  k.isOuter = true ∨ k.Formed cs

theorem Tree.length_filterMap_kind? (cs : List Tree) :
    (cs.filterMap Tree.kind?).length = Tree.nodeCount cs := by
  induction cs with
  | nil => rfl
  | cons c cs ih => cases c <;> simp [List.filterMap_cons, Tree.kind?, ih]

theorem Tree.map_kind?_of_isNode {cs : List Tree} (h : ∀ c ∈ cs, c.isNode = true) :
    cs.map Tree.kind? = (cs.filterMap Tree.kind?).map some := by
  induction cs with
  | nil => rfl
  | cons c cs ih =>
      have hcs := ih fun x hx => h x (by simp [hx])
      cases c with
      | token t => simp [Tree.isNode, Tree.kind?] at h
      | node k ds => simp [Tree.kind?, hcs]

theorem Tree.any_isKind (k : NodeKind) (cs : List Tree) :
    cs.any (Tree.isKind k) = (cs.filterMap Tree.kind?).contains k := by
  induction cs with
  | nil => rfl
  | cons c cs ih => cases c <;> simp [List.filterMap_cons, Tree.isKind, Tree.kind?, ih, eq_comm]

theorem Tree.any_isTagValue (cs : List Tree) :
    cs.any Tree.isTagValue = (cs.filterMap Tree.kind?).any NodeKind.isTagValue := by
  induction cs with
  | nil => rfl
  | cons c cs ih => cases c <;> simp [List.filterMap_cons, Tree.isTagValue, Tree.kind?, ih]

/-- A formed node has as many problems of its own as defects. -/
theorem NodeKind.OuterOrFormed.length_problems {k : NodeKind} {cs : List Tree}
    (h : k.OuterOrFormed cs) :
    (openingProblem? k cs).toList.length + (closingProblem? k cs).toList.length
      = k.defects cs := by
  cases k with
  | error =>
      obtain houter | ⟨t, p, ht, hp⟩ := h
      · cases houter
      · simp [openingProblem?, closingProblem?, ht, hp, NodeKind.defects]
  | binary op =>
      obtain houter | hcount := h
      · cases houter
      · have hnodes := Tree.length_filterMap_kind? cs
        rcases hcount with hcount | hcount <;>
          simp [openingProblem?, closingProblem?, hnodes, hcount, NodeKind.defects]
  | clause =>
      have hclosed : (Tree.node .clause cs).isClosed = cs.any Tree.isRightParen := rfl
      by_cases hparen : cs.any Tree.isRightParen = true <;>
        simp [openingProblem?, closingProblem?, hclosed, hparen, NodeKind.defects]
  | literal kind =>
      obtain houter | ⟨t, rfl, hk, hlex⟩ := h
      · cases houter
      · have hclosed := hlex.isClosedLiteral_eq hk
        by_cases hend : isTerminated kind t.text = true <;>
          simp [openingProblem?, closingProblem?, hclosed, hend, NodeKind.defects]
  | tag =>
      obtain houter | hnodes := h
      · cases houter
      · have hsign : cs.map Tree.kind? = [some .sign] ↔ cs.filterMap Tree.kind? = [.sign] := by
          rw [Tree.map_kind?_of_isNode hnodes, ← List.map_singleton (f := some),
            List.map_inj_right fun _ _ => Option.some.inj]
        -- a lone sign leaves no room for a comparison, so at most one of the two defects is there
        simp only [openingProblem?, closingProblem?, NodeKind.defects, Tree.any_isKind,
          Tree.any_isTagValue, hsign]
        by_cases hlone : cs.filterMap Tree.kind? = [.sign]
        · simp [hlone]
        · rw [if_neg hlone, if_neg hlone]
          split <;> rfl
  | _ => simp [openingProblem?, closingProblem?, NodeKind.defects]

mutual

/-- **A tree of formed nodes has one problem for each defect.** -/
theorem length_problemsFrom {t : Tree} (h : t.All NodeKind.OuterOrFormed) (start : Nat) :
    (problemsFrom start t).length = t.defects := by
  cases t with
  | token t => simp [problemsFrom, Tree.defects]
  | node k cs =>
      rw [Tree.all_node] at h
      have hnode := h.1.length_problems
      have hcs := length_problemsOf h.2 start
      simp only [problemsFrom, List.length_append, List.length_map, hcs, Tree.defects]
      omega

theorem length_problemsOf {cs : List Tree} (h : Tree.AllOf NodeKind.OuterOrFormed cs)
    (start : Nat) : (problemsOf start cs).length = Tree.defectsOf cs := by
  cases cs with
  | nil => simp [problemsOf, Tree.defectsOf]
  | cons c cs =>
      rw [Tree.allOf_cons] at h
      rw [problemsOf, List.length_append, length_problemsFrom h.1, length_problemsOf h.2,
        Tree.defectsOf]

end

end CardQuery
