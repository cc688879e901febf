import CardQuery.Proofs.Cursor.Climb

/-!
# Terms that hold together

Two terms of a text hold together when they stand in one region, or one of them in the domain and
the other in a query, and when every `or` around the first is around the second too, with both in
the same operand. `Focus.isConjunct` says so of places. Whether it holds depends on the *address* of
a place only, that is the kinds of the nodes above it and the numbers of the children that lead to
it, and `Tree.located` lists the nodes of a tree with their addresses by recursion.

Main statement: the terms that hold together with a term are found among the located nodes
(`Tree.heldTags_eq`).
-/

set_option autoImplicit false

namespace CardQuery

/-! ## Terms that hold together -/

namespace Focus

/-- The numbers of the children that lead to a place, the last first. -/
def path (f : Focus) : List Nat :=
  f.above.map fun s => s.before.length

/-- Whether a place is another place of the same tree, or inside it. -/
def isWithin (f g : Focus) : Bool :=
  g.path.isSuffixOf f.path

/-- The region around a place. -/
def region? (f : Focus) : Option Focus :=
  f.ancestors.find? fun g => g.tree.kind?.any NodeKind.isRegion

/-- Whether a place is in the region of another, or in the domain when the other is in a query. -/
def sharesRegion (f c : Focus) : Bool :=
  f.region?.map path = c.region?.map path
    || (c.inQuery && f.region?.any fun r => r.tree.isKind .domain)

/-- Whether every `or` around a place is around another too, with both in the same operand. -/
def sharesOperands (f c : Focus) : Bool :=
  (f :: f.ancestors).all fun g => g.parentKind? ≠ some (.binary .or) || c.isWithin g

/-- Whether a place is a term that holds together with the other term `c`. -/
def isConjunct (f c : Focus) : Bool :=
  f.isTerm && f.path ≠ c.path && f.sharesRegion c && f.sharesOperands c

end Focus

/-- The tags of the terms of a tree that hold together with a term. -/
def Tree.heldTags (t : Tree) (c : Focus) : List QueryTag :=
  (t.nodes.filter fun f => f.isConjunct c).filterMap fun f => QueryTag.ofTerm? f.tree

/-! ## Addresses -/

/-- The way from a node up to the root: the kinds of the nodes above it, each with the number of the
child that is passed. -/
abbrev Address := List (NodeKind × Nat)

namespace Address

/-- The address below some steps. -/
def ofSteps (above : List Step) : Address :=
  above.map fun s => (s.kind, s.before.length)

/-- The numbers of the children. -/
def path (a : Address) : List Nat :=
  a.map Prod.snd

/-- The kind and the path of the nearest region above. -/
def region? : Address → Option (NodeKind × List Nat)
  | [] => none
  | (k, _) :: a => if k.isRegion then some (k, path a) else region? a

/-- Whether a named query is above. -/
def inQuery (a : Address) : Bool :=
  a.any fun s => s.1 = .query

/-- Whether the region above is that above `c`, or the domain when `c` is in a query. -/
def sharesRegion (a c : Address) : Bool :=
  a.region?.map Prod.snd = c.region?.map Prod.snd
    || (c.inQuery && a.region?.any fun r => r.1 = .domain)

/-- Whether each operand of `or` on the way is also on the way of `c`. -/
def sharesOperands (c : Address) : Address → Bool
  | [] => true
  | (k, i) :: a => (k ≠ .binary .or || (i :: path a).isSuffixOf c.path) && sharesOperands c a

/-- Whether what stands at `a` holds together with what stands at `c`. -/
def fits (c a : Address) : Bool :=
  a.sharesRegion c && sharesOperands c a

end Address

/-- Whether a node at an address is a term. -/
def Tree.isTermAt (a : Address) (t : Tree) : Bool :=
  match t.kind? with
  | some .tag => true
  | some .argument | some (.literal _) => a.head?.map Prod.fst ≠ some .tag
  | _ => false

/-- Whether a node at an address is a term that holds together with the other term at `c`. -/
def Address.isConjunct (c : Address) (x : Address × Tree) : Bool :=
  x.2.isTermAt x.1 && x.1.path ≠ c.path && fits c x.1

namespace Focus

/-- The address of a place. -/
def address (f : Focus) : Address :=
  .ofSteps f.above

theorem path_address (f : Focus) : f.address.path = f.path := by
  simp [address, Address.ofSteps, Address.path, path]

theorem isTermAt_address (f : Focus) : f.tree.isTermAt f.address = f.isTerm := by
  have hparent : f.address.head?.map Prod.fst = f.parentKind? := by
    rw [address, Address.ofSteps, parentKind?, List.head?_map, Option.map_map]
    rfl
  cases hk : f.tree.kind? with
  | none => simp [Tree.isTermAt, isTerm, hk]
  | some k => cases k <;> simp [Tree.isTermAt, isTerm, hk, hparent]

theorem map_region? (f : Focus) :
    f.region?.map (fun r => (r.tree.kind?, r.path))
      = f.address.region?.map fun r => (some r.1, r.2) := by
  rcases f with ⟨t, start, above⟩
  show ((ancestorsFrom t above).find? _).map _ = (Address.region? (above.map _)).map _
  induction above generalizing t with
  | nil => rfl
  | cons s above ih =>
      rw [ancestorsFrom, List.find?_cons, List.map_cons, Address.region?]
      cases hs : s.kind.isRegion with
      | true =>
          simp [Step.fill, Tree.kind?, hs, path, Address.path]
      | false =>
          simpa [Step.fill, Tree.kind?, hs] using ih (s.fill t)

theorem inQuery_address (c : Focus) : c.address.inQuery = c.inQuery := by
  simp [Address.inQuery, inQuery, address, Address.ofSteps, Function.comp_def]

theorem sharesRegion_address (f c : Focus) :
    f.address.sharesRegion c.address = f.sharesRegion c := by
  have hpath : ∀ g : Focus, g.address.region?.map Prod.snd = g.region?.map path := by
    intro g
    have hmap := congrArg (Option.map Prod.snd) (map_region? g)
    rw [Option.map_map, Option.map_map] at hmap
    exact hmap.symm
  have hdomain : (f.address.region?.any fun r => r.1 = .domain)
      = f.region?.any fun r => r.tree.isKind .domain := by
    have hmap := congrArg (fun o => o.any fun r => r.1 = some .domain) (map_region? f)
    simp only [Option.any_map] at hmap
    simpa [Tree.isKind, Function.comp_def] using hmap.symm
  rw [sharesRegion, Address.sharesRegion, hpath, hpath, hdomain, inQuery_address]

theorem sharesOperands_address (f c : Focus) :
    Address.sharesOperands c.address f.address = f.sharesOperands c := by
  rcases f with ⟨t, start, above⟩
  rw [sharesOperands]
  show Address.sharesOperands c.address (above.map _)
    = (List.cons (Focus.mk t start above) (ancestorsFrom t above)).all _
  induction above generalizing t start with
  | nil => simp [Address.sharesOperands, ancestorsFrom, parentKind?]
  | cons s above ih =>
      rw [List.map_cons, Address.sharesOperands, ancestorsFrom, List.all_cons,
        ih (s.fill t) s.start]
      congr 1
      simp [parentKind?, isWithin, path, address, Address.ofSteps, Address.path, Function.comp_def]

theorem isConjunct_address (f c : Focus) :
    c.address.isConjunct (f.address, f.tree) = f.isConjunct c := by
  rw [Address.isConjunct, isConjunct, Address.fits, isTermAt_address, path_address, path_address,
    sharesRegion_address, sharesOperands_address, Bool.and_assoc (_ && _)]

end Focus

/-! ## The nodes of a tree with their addresses -/

namespace Tree

mutual

/-- The nodes of a subtree in preorder, each with its address. -/
def located (a : Address) : Tree → List (Address × Tree)
  | .token _ => []
  | .node k cs => (a, .node k cs) :: locatedOf a k 0 cs

/-- The nodes in the children of a node of kind `k`, from the child with number `i` on. -/
def locatedOf (a : Address) (k : NodeKind) (i : Nat) : List Tree → List (Address × Tree)
  | [] => []
  | c :: cs => located ((k, i) :: a) c ++ locatedOf a k (i + 1) cs

end

@[simp] theorem located_token (a : Address) (t : Token) : (token t).located a = [] := by
  simp [located]

@[simp] theorem located_node (a : Address) (k : NodeKind) (cs : List Tree) :
    (node k cs).located a = (a, node k cs) :: locatedOf a k 0 cs := by
  simp [located]

@[simp] theorem locatedOf_nil (a : Address) (k : NodeKind) (i : Nat) :
    locatedOf a k i [] = [] := by
  simp [locatedOf]

@[simp] theorem locatedOf_cons (a : Address) (k : NodeKind) (i : Nat) (c : Tree)
    (cs : List Tree) :
    locatedOf a k i (c :: cs) = c.located ((k, i) :: a) ++ locatedOf a k (i + 1) cs := by
  simp [locatedOf]

theorem locatedOf_append (a : Address) (k : NodeKind) (i : Nat) (xs ys : List Tree) :
    locatedOf a k i (xs ++ ys) = locatedOf a k i xs ++ locatedOf a k (i + xs.length) ys := by
  induction xs generalizing i with
  | nil => simp
  | cons x xs ih => simp [ih, Nat.add_assoc, Nat.add_comm 1]

/-- The nodes among some places, with their addresses. -/
def nodesAmong (fs : List Focus) : List (Address × Tree) :=
  (fs.filter fun f => f.tree.isNode).map fun f => (f.address, f.tree)

theorem nodesAmong_append (fs gs : List Focus) :
    nodesAmong (fs ++ gs) = nodesAmong fs ++ nodesAmong gs := by
  simp [nodesAmong]

mutual

theorem nodesAmong_focusesFrom (above : List Step) (start : Nat) (t : Tree) :
    nodesAmong (focusesFrom above start t)
      = t.located (.ofSteps above) := by
  cases t with
  | token t => simp [focusesFrom, nodesAmong, isNode, kind?]
  | node k cs =>
      rw [focusesFrom, located_node]
      exact congrArg (List.cons _) (nodesAmong_focusesOf above k start [] start cs)

theorem nodesAmong_focusesOf (above : List Step) (k : NodeKind) (nodeStart : Nat)
    (before : List Tree) (start : Nat) (cs : List Tree) :
    nodesAmong (focusesOf above k nodeStart before start cs)
      = locatedOf (.ofSteps above) k before.length cs := by
  cases cs with
  | nil => simp [focusesOf, nodesAmong]
  | cons c cs =>
      have hcs := nodesAmong_focusesOf above k nodeStart (before ++ [c]) (start + c.width) cs
      rw [List.length_append, List.length_singleton] at hcs
      rw [focusesOf, nodesAmong_append, nodesAmong_focusesFrom, hcs, locatedOf_cons]
      rfl

end

end Tree

/-! ## Different places have different paths -/

theorem eq_of_suffix_cons {i j : Nat} {p q : List Nat} (hi : (i :: p) <:+ q)
    (hj : (j :: p) <:+ q) : i = j := by
  have hsame := (List.suffix_of_suffix_length_le hi hj (by simp)).eq_of_length (by simp)
  exact (List.cons.inj hsame).1

namespace Tree

mutual

theorem suffix_of_mem_located {a : Address} {t : Tree} {x : Address × Tree}
    (hx : x ∈ t.located a) : a.path <:+ x.1.path := by
  cases t with
  | token t => simp at hx
  | node k cs =>
      rw [located_node, List.mem_cons] at hx
      rcases hx with rfl | hx
      · exact List.suffix_refl _
      · obtain ⟨j, -, hj⟩ := suffix_of_mem_locatedOf hx
        exact (List.suffix_cons j a.path).trans hj

theorem suffix_of_mem_locatedOf {a : Address} {k : NodeKind} {i : Nat} {cs : List Tree}
    {x : Address × Tree} (hx : x ∈ locatedOf a k i cs) :
    ∃ j, i ≤ j ∧ (j :: a.path) <:+ x.1.path := by
  cases cs with
  | nil => simp at hx
  | cons c cs =>
      rw [locatedOf_cons, List.mem_append] at hx
      rcases hx with hx | hx
      · exact ⟨i, le_refl i, suffix_of_mem_located hx⟩
      · obtain ⟨j, hij, hj⟩ := suffix_of_mem_locatedOf hx
        exact ⟨j, by omega, hj⟩

end

mutual

theorem nodup_located (a : Address) (t : Tree) :
    ((t.located a).map fun x => x.1.path).Nodup := by
  cases t with
  | token t => simp
  | node k cs =>
      rw [located_node, List.map_cons, List.nodup_cons]
      refine ⟨fun hmem => ?_, nodup_locatedOf a k 0 cs⟩
      obtain ⟨x, hx, hpath⟩ := List.mem_map.1 hmem
      obtain ⟨j, -, hj⟩ := suffix_of_mem_locatedOf hx
      have hpath' : x.1.path = a.path := hpath
      have hlength := hj.length_le
      rw [hpath', List.length_cons] at hlength
      omega

theorem nodup_locatedOf (a : Address) (k : NodeKind) (i : Nat) (cs : List Tree) :
    ((locatedOf a k i cs).map fun x => x.1.path).Nodup := by
  cases cs with
  | nil => simp
  | cons c cs =>
      rw [locatedOf_cons, List.map_append, List.nodup_append]
      refine ⟨nodup_located _ c, nodup_locatedOf a k (i + 1) cs, ?_⟩
      intro p hp q hq heq
      obtain ⟨x, hx, rfl⟩ := List.mem_map.1 hp
      obtain ⟨y, hy, rfl⟩ := List.mem_map.1 hq
      have hxi : (i :: a.path) <:+ x.1.path := suffix_of_mem_located hx
      obtain ⟨j, hij, hyj⟩ := suffix_of_mem_locatedOf hy
      rw [← heq] at hyj
      have hsame := eq_of_suffix_cons hxi hyj
      omega

end

theorem map_nodes (t : Tree) : (t.nodes.map fun f => (f.address, f.tree)) = t.located [] :=
  nodesAmong_focusesFrom [] 0 t

/-- The nodes of a tree are told apart by their paths. -/
theorem nodup_path_nodes (t : Tree) : (t.nodes.map Focus.path).Nodup := by
  have hpaths : t.nodes.map Focus.path = (t.located []).map fun x => x.1.path := by
    rw [← map_nodes, List.map_map]
    exact List.map_congr_left fun f _ => f.path_address.symm
  rw [hpaths]
  exact nodup_located [] t

end Tree

/-- The tags among located nodes that hold together with the term at `c`. -/
def Address.heldAmong (c : Address) (xs : List (Address × Tree)) : List QueryTag :=
  (xs.filter fun x => c.isConjunct x).filterMap fun x => QueryTag.ofTerm? x.2

/-- **The terms that hold together with a term are found by recursion on the tree.** -/
theorem Tree.heldTags_eq (t : Tree) (c : Focus) :
    t.heldTags c = c.address.heldAmong (t.located []) := by
  rw [heldTags, Address.heldAmong, ← map_nodes, List.filter_map, List.filterMap_map]
  simp only [Function.comp_def, Focus.isConjunct_address]

end CardQuery
