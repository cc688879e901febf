import CardQuery.Tree.Focus

/-!
# The leaves of a tree

The leaves of a tree are its tokens, each seen from where it stands. How a token is read can depend
on its place in a tag: whether it is the comparison, a part of the value or something else.
`Tree.placed` lists the tokens with their places by recursion on the tree.

Main statements: the leaves of a tree are its tokens side by side (`leaves_eq_placeTokens`), each
at its place (`leaves_eq_placed`).
-/

set_option autoImplicit false

namespace CardQuery

/-- Where a token stands in a tag, if it stands in one. -/
inductive Place
  | operator
  | value
  | elsewhere
  deriving DecidableEq, Repr

/-- The place of a token with nodes of these kinds above it, the nearest first. -/
def Place.ofKinds : List NodeKind → Place
  | .operator :: .tag :: _ => .operator
  | .value :: .tag :: _ => .value
  | _ => .elsewhere

/-- Whether a node of a kind is no part of a tag in which a token has a place. -/
def NodeKind.isOutside : NodeKind → Bool
  | .tag | .operator | .value => false
  | _ => true

/-- The place in a tag of a token in a tree. -/
def Focus.place (f : Focus) : Place :=
  .ofKinds (f.above.map Step.kind)

namespace Tree

mutual

/-- The tokens of a tree with their places, when nodes of these kinds are above it. -/
def placed (above : List NodeKind) : Tree → List (Place × Token)
  | .token t => [(.ofKinds above, t)]
  | .node k cs => placedOf (k :: above) cs

/-- The tokens of several trees with their places. -/
def placedOf (above : List NodeKind) : List Tree → List (Place × Token)
  | [] => []
  | c :: cs => placed above c ++ placedOf above cs

end

@[simp] theorem placed_token (above : List NodeKind) (t : Token) :
    (token t).placed above = [(.ofKinds above, t)] := by
  simp [placed]

@[simp] theorem placed_node (above : List NodeKind) (k : NodeKind) (cs : List Tree) :
    (node k cs).placed above = placedOf (k :: above) cs := by
  simp [placed]

@[simp] theorem placedOf_nil (above : List NodeKind) : placedOf above [] = [] := by
  simp [placedOf]

@[simp] theorem placedOf_cons (above : List NodeKind) (c : Tree) (cs : List Tree) :
    placedOf above (c :: cs) = c.placed above ++ placedOf above cs := by
  simp [placedOf]

@[simp] theorem placedOf_append (above : List NodeKind) (xs ys : List Tree) :
    placedOf above (xs ++ ys) = placedOf above xs ++ placedOf above ys := by
  induction xs with
  | nil => simp
  | cons x xs ih => simp [ih]

@[simp] theorem placedOf_map_token (above : List NodeKind) (ts : List Token) :
    placedOf above (ts.map token) = ts.map fun t => (.ofKinds above, t) := by
  induction ts with
  | nil => simp
  | cons t ts ih => simp [ih]

mutual

theorem map_snd_placed (above : List NodeKind) (t : Tree) :
    (t.placed above).map Prod.snd = t.tokens := by
  cases t with
  | token t => simp
  | node k cs => simpa using map_snd_placedOf (k :: above) cs

theorem map_snd_placedOf (above : List NodeKind) (cs : List Tree) :
    (placedOf above cs).map Prod.snd = tokensOf cs := by
  cases cs with
  | nil => simp
  | cons c cs => simp [map_snd_placed above c, map_snd_placedOf above cs]

end

/-! ## Places by recursion on the tree -/

mutual

theorem placed_of_two (a b : NodeKind) (above : List NodeKind) (t : Tree) :
    t.placed (a :: b :: above) = t.placed [a, b] := by
  cases t with
  | token t => cases a <;> cases b <;> simp [Place.ofKinds]
  | node k cs =>
      rw [placed_node, placed_node, placedOf_of_two k a (b :: above), placedOf_of_two k a [b]]

theorem placedOf_of_two (a b : NodeKind) (above : List NodeKind) (cs : List Tree) :
    placedOf (a :: b :: above) cs = placedOf [a, b] cs := by
  cases cs with
  | nil => simp
  | cons c cs =>
      rw [placedOf_cons, placedOf_cons, placed_of_two a b above c, placedOf_of_two a b above cs]

end

/-- Below a node that is no part of a tag, places are as at the root. -/
theorem placed_of_isOutside {k : NodeKind} (hk : k.isOutside = true) (above : List NodeKind)
    (t : Tree) : t.placed (k :: above) = t.placed [] := by
  -- the two kinds nearest to a token decide its place, and no tag is the second of them here
  have hflat : ∀ (j : NodeKind) (cs : List Tree), placedOf [j, k] cs = placedOf [j] cs := by
    intro j cs
    induction cs with
    | nil => simp
    | cons c cs ih =>
        rw [placedOf_cons, placedOf_cons, ih]
        cases c with
        | token t => cases j <;> cases k <;> simp_all [Place.ofKinds, NodeKind.isOutside]
        | node i ds => rw [placed_node, placed_node, placedOf_of_two]
  cases t with
  | token t => cases k <;> simp_all [Place.ofKinds, NodeKind.isOutside]
  | node j cs => rw [placed_node, placed_node, placedOf_of_two, hflat]

theorem placedOf_of_isOutside {k : NodeKind} (hk : k.isOutside = true) (above : List NodeKind)
    (cs : List Tree) : placedOf (k :: above) cs = placedOf [] cs := by
  induction cs with
  | nil => simp
  | cons c cs ih => rw [placedOf_cons, placedOf_cons, placed_of_isOutside hk, ih]

/-! ## The leaves among the places of a tree -/

/-- The leaves among some places of a tree. -/
def leavesAmong (fs : List Focus) : List Focus :=
  fs.filter fun f => !f.tree.isNode

theorem leaves_eq (t : Tree) : t.leaves = leavesAmong t.focuses := rfl

@[simp] theorem leavesAmong_append (fs gs : List Focus) :
    leavesAmong (fs ++ gs) = leavesAmong fs ++ leavesAmong gs :=
  List.filter_append ..

theorem leavesAmong_cons_node (k : NodeKind) (cs : List Tree) (start : Nat) (above : List Step)
    (fs : List Focus) : leavesAmong (⟨.node k cs, start, above⟩ :: fs) = leavesAmong fs := rfl

mutual

theorem leavesAmong_focusesFrom (above : List Step) (start : Nat) (t : Tree) :
    (leavesAmong (focusesFrom above start t)).map (fun f => (f.place, f.tree))
      = (t.placed (above.map Step.kind)).map fun x => (x.1, token x.2) := by
  cases t with
  | token t => simp [focusesFrom, leavesAmong, isNode, kind?, Focus.place]
  | node k cs =>
      rw [focusesFrom, leavesAmong_cons_node, placed_node]
      exact leavesAmong_focusesOf above k start [] start cs

theorem leavesAmong_focusesOf (above : List Step) (k : NodeKind) (nodeStart : Nat)
    (before : List Tree) (start : Nat) (cs : List Tree) :
    (leavesAmong (focusesOf above k nodeStart before start cs)).map (fun f => (f.place, f.tree))
      = (placedOf (k :: above.map Step.kind) cs).map fun x => (x.1, token x.2) := by
  cases cs with
  | nil => simp [focusesOf, leavesAmong]
  | cons c cs =>
      have hc := leavesAmong_focusesFrom (⟨k, nodeStart, before, cs⟩ :: above) start c
      have hcs := leavesAmong_focusesOf above k nodeStart (before ++ [c]) (start + c.width) cs
      simp only [focusesOf, leavesAmong_append, List.map_append, placedOf_cons, hcs]
      rw [hc, List.map_cons]

end

mutual

theorem placeTokens_focusesFrom (above : List Step) (start : Nat) (t : Tree) :
    (leavesAmong (focusesFrom above start t)).map (fun f => (f.tree, f.start))
      = (placeTokens start t.tokens).map fun p => (token p.token, p.start) := by
  cases t with
  | token t => simp [focusesFrom, leavesAmong, isNode, kind?, placeTokens]
  | node k cs =>
      rw [focusesFrom, leavesAmong_cons_node, tokens_node]
      exact placeTokens_focusesOf above k start [] start cs

theorem placeTokens_focusesOf (above : List Step) (k : NodeKind) (nodeStart : Nat)
    (before : List Tree) (start : Nat) (cs : List Tree) :
    (leavesAmong (focusesOf above k nodeStart before start cs)).map (fun f => (f.tree, f.start))
      = (placeTokens start (tokensOf cs)).map fun p => (token p.token, p.start) := by
  cases cs with
  | nil => simp [focusesOf, leavesAmong, placeTokens]
  | cons c cs =>
      have hc := placeTokens_focusesFrom (⟨k, nodeStart, before, cs⟩ :: above) start c
      have hcs := placeTokens_focusesOf above k nodeStart (before ++ [c]) (start + c.width) cs
      rw [focusesOf, leavesAmong_append, List.map_append, hc, hcs, tokensOf_cons,
        placeTokens_append, List.map_append, tokensWidth_tokens]

end

/-- **The leaves of a tree are its tokens at their places.** -/
theorem leaves_eq_placed (t : Tree) :
    t.leaves.map (fun f => (f.place, f.tree)) = (t.placed []).map fun x => (x.1, token x.2) := by
  rw [leaves_eq, focuses]
  exact leavesAmong_focusesFrom [] 0 t

/-- **The leaves of a tree are its tokens side by side.** -/
theorem leaves_eq_placeTokens (t : Tree) :
    t.leaves.map (fun f => (f.tree, f.start))
      = (placeTokens 0 t.tokens).map fun p => (token p.token, p.start) := by
  rw [leaves_eq, focuses]
  exact placeTokens_focusesFrom [] 0 t

end Tree

end CardQuery
