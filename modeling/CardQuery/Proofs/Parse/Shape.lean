import CardQuery.Proofs.Parse.Layout
import CardQuery.Proofs.Parse.Spelling

/-!
# The shape of an expression

`Shape` describes the trees of expressions without errors and without blanks: rows of `and` lean
to the left and have terms as right operands, rows of `or` lean to the left and have rows of `and`
as right operands, and a clause holds at most one expression. `Tree.yield` lists the items that a
tree consists of.

Main statements: the items of such a tree are joined to the tree again (`Shape.joined_yield`), and
nothing is wrong with it (`Shape.faultless`).
-/

set_option autoImplicit false

namespace CardQuery

/-- How loosely an expression binds. -/
inductive Level
  | term
  | row (op : Connective)
  deriving DecidableEq

/-- The level of a right operand. -/
def Level.right : Connective → Level
  | .and => .term
  | .or => .row .and

/-- Whether a token, or none, joins operands by a connective. Only `and` can go without. -/
def Joins (op : Connective) (kw : Option Token) : Prop :=
  (∀ t ∈ kw, t.kind = .keyword op) ∧ (op = .or → kw ≠ none)

/-- The trees of expressions without errors and without blanks. -/
inductive Shape : Level → Tree → Prop
  | simple {w : List Token} {t : Tree} {e : Ending} (h : SpelledTerm w t e) : Shape .term t
  | empty {o c : Token} (ho : o.kind = .leftParen) (hc : c.kind = .rightParen) :
      Shape .term (.node .clause [.token o, .token c])
  | clause {o c : Token} {t : Tree} (ho : o.kind = .leftParen) (hc : c.kind = .rightParen)
      (ht : Shape (.row .or) t) : Shape .term (.node .clause [.token o, t, .token c])
  | join {op : Connective} {k : Option Token} {l r : Tree} (hl : Shape (.row op) l)
      (hk : Joins op k) (hr : Shape (.right op) r) :
      Shape (.row op) (.node (.binary op) (l :: (k.toList.map .token ++ [r])))
  | ofTerm {t : Tree} (h : Shape .term t) : Shape (.row .and) t
  | ofAnd {t : Tree} (h : Shape (.row .and) t) : Shape (.row .or) t

/-- A right operand can stand alone. -/
theorem Shape.of_right {op : Connective} {t : Tree} (h : Shape (.right op) t) :
    Shape (.row op) t := by
  cases op with
  | and => exact .ofTerm h
  | or => exact .ofAnd h

/-- A row of either connective is an expression. -/
theorem Shape.row_or {op : Connective} {t : Tree} (h : Shape (.row op) t) :
    Shape (.row .or) t := by
  cases op with
  | and => exact .ofAnd h
  | or => exact h

/-! ## The items of a tree -/

namespace Tree

mutual

/-- The items that a tree consists of. -/
def yield : Tree → List Item
  | .token t => (Item.ofMark? t).toList
  | .node k cs =>
    match k with
    | .clause | .binary _ => yieldEach cs
    | _ => [.term (.node k cs)]

/-- The items that several trees consist of. -/
def yieldEach : List Tree → List Item
  | [] => []
  | c :: cs => c.yield ++ yieldEach cs

end

@[simp] theorem yield_token (t : Token) : (token t).yield = (Item.ofMark? t).toList := by
  simp [yield]

@[simp] theorem yield_clause (cs : List Tree) : (node .clause cs).yield = yieldEach cs := by
  simp [yield]

@[simp] theorem yield_binary (op : Connective) (cs : List Tree) :
    (node (.binary op) cs).yield = yieldEach cs := by
  simp [yield]

theorem yield_term {k : NodeKind} (hk : k.isTerm = true ∨ k = .error) (cs : List Tree) :
    (node k cs).yield = [.term (node k cs)] := by
  cases k <;> simp_all [yield, NodeKind.isTerm]

@[simp] theorem yieldEach_nil : yieldEach [] = [] := by
  simp [yieldEach]

@[simp] theorem yieldEach_cons (c : Tree) (cs : List Tree) :
    yieldEach (c :: cs) = c.yield ++ yieldEach cs := by
  simp [yieldEach]

@[simp] theorem yieldEach_append (xs ys : List Tree) :
    yieldEach (xs ++ ys) = yieldEach xs ++ yieldEach ys := by
  induction xs with
  | nil => simp
  | cons x xs ih => simp [ih]

end Tree

/-- A spelled term is a node of a term's kind. -/
theorem SpelledTerm.exists_node {w : List Token} {tree : Tree} {e : Ending}
    (h : SpelledTerm w tree e) : ∃ k cs, tree = .node k cs ∧ k.isTerm = true := by
  cases h <;> exact ⟨_, _, rfl, rfl⟩

theorem SpelledTerm.yield_eq {w : List Token} {tree : Tree} {e : Ending}
    (h : SpelledTerm w tree e) : tree.yield = [.term tree] := by
  obtain ⟨k, cs, rfl, hk⟩ := h.exists_node
  exact Tree.yield_term (Or.inl hk) cs

theorem Item.ofMark?_leftParen {t : Token} (h : t.kind = .leftParen) :
    Item.ofMark? t = some (.opening t) := by
  simp [Item.ofMark?, h]

theorem Item.ofMark?_rightParen {t : Token} (h : t.kind = .rightParen) :
    Item.ofMark? t = some (.closing t) := by
  simp [Item.ofMark?, h]

theorem Item.ofMark?_keyword {t : Token} {op : Connective} (h : t.kind = .keyword op) :
    Item.ofMark? t = some (.keyword op t) := by
  simp [Item.ofMark?, h]

theorem Item.ofMark?_blank {t : Token} (h : t.kind = .blank) :
    Item.ofMark? t = some (.blank t) := by
  simp [Item.ofMark?, h]

/-- The mark of a token that is not blank is not blank. -/
theorem Item.isBlank_of_ofMark? {t : Token} {i : Item} (h : ofMark? t = some i)
    (ht : t.kind ≠ .blank) : i.isBlank = false := by
  unfold ofMark? at h
  split at h <;> cases h <;> simp_all [isBlank]

theorem Tree.yield_empty {o c : Token} (ho : o.kind = .leftParen) (hc : c.kind = .rightParen) :
    (node .clause [.token o, .token c]).yield = [.opening o, .closing c] := by
  simp [Item.ofMark?_leftParen ho, Item.ofMark?_rightParen hc]

/-- The items of a clause are those of its expression, in parentheses. -/
theorem Tree.yield_parens {o c : Token} (ho : o.kind = .leftParen) (hc : c.kind = .rightParen)
    (t : Tree) :
    (node .clause [.token o, t, .token c]).yield = .opening o :: t.yield ++ [.closing c] := by
  simp [Item.ofMark?_leftParen ho, Item.ofMark?_rightParen hc]

/-! ## Joining the items of a tree -/

/-- The chain before an operand of `and`: nothing is open, or an `or` node is begun in `outer`. -/
def Chain.before (outer : List Tree) : Chain :=
  if outer.isEmpty then .empty else .afterOr outer

/-- What joining the items of a tree comes to: a term is added as one, a row of `and` becomes an
operand, and a row of `or` becomes the whole chain. -/
def Accepted : Level → Tree → Prop
  | .term, t => ∀ n : Nest, t.yield.foldl Nest.step n = ⟨n.group.addTerm t, n.around⟩
  | .row .and, t => ∀ (settled outer : List Tree) (around : List Group),
      t.yield.foldl Nest.step ⟨⟨settled, .before outer⟩, around⟩
        = ⟨⟨settled, .operand outer [t]⟩, around⟩
  | .row .or, t => ∀ (settled : List Tree) (around : List Group), ∃ outer run,
      t.yield.foldl Nest.step ⟨⟨settled, .empty⟩, around⟩
        = ⟨⟨settled, .operand outer run⟩, around⟩ ∧ closeOr outer run = [t]

theorem accepted_join_and {l r : Tree} {kw : Option Token} (hl : Accepted (.row .and) l)
    (hkw : ∀ t ∈ kw, t.kind = .keyword .and) (hr : Accepted .term r) :
    Accepted (.row .and) (.node (.binary .and) (l :: (kw.toList.map .token ++ [r]))) := by
  intro settled outer around
  rw [Tree.yield_binary, Tree.yieldEach_cons, List.foldl_append, hl]
  cases kw with
  | none =>
      rw [Option.toList_none, List.map_nil, List.nil_append, Tree.yieldEach_cons,
        Tree.yieldEach_nil, List.append_nil, hr]
      rfl
  | some t =>
      rw [Option.toList_some, List.map_singleton, List.singleton_append, Tree.yieldEach_cons,
        Tree.yield_token, Item.ofMark?_keyword (hkw t rfl), Tree.yieldEach_cons,
        Tree.yieldEach_nil, List.append_nil, List.foldl_append, hr]
      rfl

theorem accepted_join_or {l r : Tree} {t : Token} (hl : Accepted (.row .or) l)
    (ht : t.kind = .keyword .or) (hr : Accepted (.row .and) r) :
    Accepted (.row .or) (.node (.binary .or) [l, .token t, r]) := by
  intro settled around
  obtain ⟨outer, run, hfold, hclose⟩ := hl settled around
  refine ⟨[l, .token t], [r], ?_, rfl⟩
  rw [Tree.yield_binary, Tree.yieldEach_cons, List.foldl_append, hfold, Tree.yieldEach_cons,
    Tree.yield_token, Item.ofMark?_keyword ht, List.foldl_append, Tree.yieldEach_cons,
    Tree.yieldEach_nil, List.append_nil]
  have hbefore : ([Item.keyword .or t].foldl Nest.step ⟨⟨settled, .operand outer run⟩, around⟩)
      = ⟨⟨settled, .before [l, .token t]⟩, around⟩ := by
    simp [Nest.step, Group.addKeyword, Group.addOr, hclose, Chain.before]
  exact hbefore ▸ hr settled [l, .token t] around

/-- **The items of an expression are joined to the expression.** -/
theorem Shape.accepted {lvl : Level} {t : Tree} (h : Shape lvl t) : Accepted lvl t := by
  induction h with
  | simple h =>
      intro n
      rw [h.yield_eq]
      rfl
  | @empty o c ho hc =>
      intro n
      rw [Tree.yield_empty ho hc]
      rfl
  | @clause o c t ho hc ht ih =>
      -- the opening parenthesis starts a group around which all of the nest stands
      intro n
      obtain ⟨outer, run, hfold, hclose⟩ := ih [.token o] (n.group :: n.around)
      rw [Tree.yield_parens ho hc, List.foldl_append]
      show [Item.closing c].foldl Nest.step
        (t.yield.foldl Nest.step ⟨⟨[.token o], .empty⟩, n.group :: n.around⟩) = _
      rw [hfold]
      simp [Nest.step, Group.trees, Chain.trees, hclose]
  | @join op kw l r hl hkw hr ihl ihr =>
      cases op with
      | and => exact accepted_join_and ihl hkw.1 ihr
      | or =>
          obtain ⟨t, rfl⟩ := Option.ne_none_iff_exists'.1 (hkw.2 rfl)
          exact accepted_join_or ihl (hkw.1 t rfl) ihr
  | ofTerm h ih =>
      intro settled outer around
      rw [ih]
      cases outer <;> rfl
  | ofAnd h ih =>
      intro settled around
      exact ⟨[], _, ih settled [] around, rfl⟩

theorem Shape.joined_yield {t : Tree} (h : Shape (.row .or) t) : joined t.yield = [t] := by
  obtain ⟨outer, run, hfold, hclose⟩ := h.accepted [] []
  show (t.yield.foldl Nest.step ⟨⟨[], .empty⟩, []⟩).finish = [t]
  rw [hfold]
  exact hclose

@[simp] theorem joined_nil : joined [] = [] := rfl

/-! ## Nothing is wrong with such a tree -/

theorem Tree.faultless_leaf_literal {k : LiteralKind} {t : Token} (hk : t.kind = .literal k)
    (h : t.isClosed = true) : (Tree.leaf (.literal k) t).faultless = true := by
  rw [Token.isClosed, hk] at h
  simp [Tree.leaf, faultless_node, openingProblem?, closingProblem?, h]

theorem Tree.faultless_flat {k : NodeKind} (hk : k = .sign ∨ k = .argument ∨ k = .operator ∨
    k = .value) (ts : List Token) : (Tree.flat k ts).faultless = true := by
  rcases hk with rfl | rfl | rfl | rfl <;>
    simp [Tree.flat, faultless_node, openingProblem?, closingProblem?]

theorem SpelledValue.faultless {ts : List Token} {v : Tree} {e : Ending}
    (h : SpelledValue ts v e) : v.faultless = true := by
  cases h with
  | literal hk hclosed => exact Tree.faultless_leaf_literal hk hclosed
  | keyword hk => exact Tree.faultless_flat (by simp) [_]
  | words hne hts => exact Tree.faultless_flat (by simp) ts

theorem SpelledValue.kind? {ts : List Token} {v : Tree} {e : Ending} (h : SpelledValue ts v e) :
    ∃ k, v.kind? = some k ∧ k.isTagValue = true := by
  cases h <;> exact ⟨_, rfl, rfl⟩

theorem SpelledTerm.faultless {w : List Token} {tree : Tree} {e : Ending}
    (h : SpelledTerm w tree e) : tree.faultless = true := by
  have hleaf : ∀ {k : NodeKind} (t : Token), k = .sign ∨ k = .argument ∨ k = .operator ∨
      k = .value → (Tree.leaf k t).faultless = true :=
    fun t hk => Tree.faultless_flat hk [t]
  cases h with
  | literal hk hclosed => exact Tree.faultless_leaf_literal hk hclosed
  | word hw => exact hleaf _ (by simp)
  | @signedLiteral k m t hm hk hclosed =>
      rw [Tree.faultless_node, Tree.faultlessEach_cons, Tree.faultlessEach_cons,
        hleaf m (by simp), Tree.faultless_leaf_literal hk hclosed]
      simp [openingProblem?, closingProblem?, Tree.leaf]
  | @signedWord m w hm hw =>
      rw [Tree.faultless_node, Tree.faultlessEach_cons, Tree.faultlessEach_cons,
        hleaf m (by simp), hleaf w (by simp)]
      simp [openingProblem?, closingProblem?, Tree.leaf]
  | @tag sign a op ts v e hsign ha hop hv =>
      obtain ⟨k, hvk, hk⟩ := hv.kind?
      have hparts : Tree.faultlessEach (sign.toList.map (Tree.leaf .sign)
          ++ [.leaf .argument a, .leaf .operator op, v]) = true := by
        rw [Tree.faultlessEach_append, Tree.faultlessEach_cons, Tree.faultlessEach_cons,
          Tree.faultlessEach_cons, hleaf a (by simp), hleaf op (by simp), hv.faultless]
        cases sign with
        | none => rfl
        | some m => simp [hleaf m]
      rw [Tree.faultless_node, hparts]
      cases sign <;> simp [openingProblem?, closingProblem?, Tree.leaf, hvk, hk]

theorem Shape.isNode {lvl : Level} {t : Tree} (h : Shape lvl t) : ∃ k, t.kind? = some k := by
  induction h with
  | simple h =>
      obtain ⟨k, cs, rfl, -⟩ := h.exists_node
      exact ⟨k, rfl⟩
  | ofTerm h ih => exact ih
  | ofAnd h ih => exact ih
  | _ => exact ⟨_, rfl⟩

/-- **Nothing is wrong with an expression of this shape.** -/
theorem Shape.faultless {lvl : Level} {t : Tree} (h : Shape lvl t) : t.faultless = true := by
  induction h with
  | simple h => exact h.faultless
  | empty ho hc =>
      simp [Tree.faultless_node, openingProblem?, closingProblem?, Tree.isClosed, Tree.children, hc]
  | clause ho hc ht ih =>
      simp [Tree.faultless_node, openingProblem?, closingProblem?, Tree.isClosed, Tree.children,
        hc, ih]
  | @join op kw l r hl hkw hr ihl ihr =>
      obtain ⟨j, hj⟩ := hl.isNode
      obtain ⟨k, hk⟩ := hr.isNode
      cases kw <;>
        simp [Tree.faultless_node, openingProblem?, closingProblem?, List.filterMap_cons, ihl, ihr,
          hj, hk]
  | ofTerm h ih => exact ih
  | ofAnd h ih => exact ih

end CardQuery
