import CardQuery.Parse.Program
import CardQuery.Proofs.Parse.Flatten
import CardQuery.Proofs.Parse.Program

/-!
# Every tree that is read is formed

Whatever is wrong with a text, the nodes of its tree are formed: a binary node has one or two
operands, a tag has no loose tokens, an error node begins with a token that has a problem. The
groups that are still open are formed in the same way, and none of them holds a parenthesis that
closes it.

Main statements: the trees of a region are formed (`formed_regionTrees`), and so is the tree of a
text below its outer nodes (`outerOrFormed_parseTokens`).
-/

set_option autoImplicit false

namespace CardQuery

open CardQuery.Tree (AllOf nodeCount)

/-! ## Items -/

/-- Whether the trees of an item are formed. -/
def Item.Formed (i : Item) : Prop :=
  AllOf NodeKind.Formed i.trees

theorem Tree.isNode_leaf (k : NodeKind) (t : Token) : (Tree.leaf k t).isNode = true := rfl

theorem Tree.isNode_flat (k : NodeKind) (ts : List Token) : (Tree.flat k ts).isNode = true := rfl

namespace Draft

/-- Whether the item that is complete, if one is, is formed. -/
def Formed : Draft → Prop
  | .complete i => i.Formed
  | _ => True

theorem formed_leaf_literal {k : LiteralKind} {t : Token} (hk : t.kind = .literal k)
    (ht : t.IsLexeme) : (Tree.leaf (.literal k) t).All NodeKind.Formed := by
  rw [Tree.leaf, Tree.all_node]
  exact ⟨⟨t, rfl, hk, ht⟩, by simp⟩

theorem formed_flat_error {t : Token} {p : Problem} (hp : t.kind.problem? = some p)
    (ts : List Token) : (Tree.flat .error (t :: ts)).All NodeKind.Formed := by
  rw [Tree.flat, Tree.all_node]
  exact ⟨⟨t, p, by simp, hp⟩, Tree.allOf_map_token _⟩

theorem formed_leaf_error {t : Token} {p : Problem} (hp : t.kind.problem? = some p) :
    (Tree.leaf .error t).All NodeKind.Formed :=
  formed_flat_error hp []

theorem formed_flat {k : NodeKind} (hk : k.isPlain = true) (ts : List Token) :
    (Tree.flat k ts).All NodeKind.Formed := by
  cases k <;> cases hk <;> simp [Tree.flat, NodeKind.Formed, NodeKind.isOuter]

theorem formed_leaf {k : NodeKind} (hk : k.isPlain = true) (t : Token) :
    (Tree.leaf k t).All NodeKind.Formed :=
  formed_flat hk [t]

theorem formed_tagOf (sign : Option Token) {parts : List Tree}
    (hnodes : ∀ c ∈ parts, c.isNode = true) (hparts : AllOf NodeKind.Formed parts) :
    (tagOf sign parts).Formed := by
  have hchildren : ∀ c ∈ sign.toList.map (Tree.leaf .sign) ++ parts, c.isNode = true := by
    intro c hc
    rcases List.mem_append.1 hc with hc | hc
    · obtain ⟨m, -, rfl⟩ := List.mem_map.1 hc
      rfl
    · exact hnodes c hc
  have hall : AllOf NodeKind.Formed (sign.toList.map (Tree.leaf .sign) ++ parts) := by
    cases sign <;> simp (disch := decide) [hparts, formed_leaf]
  show AllOf NodeKind.Formed [_]
  rw [Tree.allOf_cons, Tree.all_node]
  exact ⟨⟨hchildren, hall⟩, by simp⟩

theorem formed_start {t : Token} (ht : t.IsLexeme) : (start t).Formed := by
  unfold start
  cases hk : t.kind with
  | literal k => simpa [Formed, Item.Formed, Item.trees] using formed_leaf_literal hk ht
  | unknown =>
      have hp : t.kind.problem? = some .unexpectedCharacter := by rw [hk]; rfl
      simpa [Formed, Item.Formed, Item.trees] using formed_leaf_error hp
  | _ => simp [Formed, Item.Formed, Item.trees]

theorem formed_extend {d d' : Draft} {t : Token} (ht : t.IsLexeme) (h : d.extend t = some d') :
    d'.Formed := by
  cases d <;> simp only [extend] at h
  case complete => cases h
  case minus =>
    split at h <;> cases h
    · trivial
    · next k hk =>
        exact formed_tagOf _ (by simp [Tree.isNode_leaf])
          (by simpa using formed_leaf_literal hk ht)
  case tag =>
    split at h <;> cases h <;> try trivial
    · next k hk =>
        exact formed_tagOf _ (by simp [Tree.isNode_leaf])
          (by simp (disch := decide) [formed_leaf, formed_leaf_literal hk ht])
    · exact formed_tagOf _ (by simp [Tree.isNode_leaf])
        (by simp (disch := decide) [formed_leaf])
  all_goals
    split at h <;> cases h
    all_goals trivial

theorem formed_finish {d : Draft} {w : List Token} (hfits : d.Fits w) (h : d.Formed)
    (next : Option TokenKind) : (d.finish next).Formed := by
  cases d with
  | complete i => exact h
  | minus m =>
      have hp : m.kind.problem? = some .negatedClause := by rw [hfits.2]; rfl
      simp only [finish]
      split
      · simpa [Item.Formed, Item.trees] using formed_leaf_error hp
      · exact formed_tagOf _ (by simp) (by simp)
  | word sign a =>
      cases sign with
      | none => simpa [finish, Item.Formed, Item.trees] using formed_leaf rfl a
      | some m =>
          exact formed_tagOf _ (by simp [Tree.isNode_leaf])
            (by simp (disch := decide) [formed_leaf])
  | tag sign a op =>
      exact formed_tagOf _ (by simp [Tree.isNode_leaf]) (by simp (disch := decide) [formed_leaf])
  | value sign a op words =>
      exact formed_tagOf _ (by simp [Tree.isNode_leaf, Tree.isNode_flat])
        (by simp (disch := decide) [formed_leaf, formed_flat])
  | stray ts =>
      obtain ⟨c, t, rest, rfl, hk⟩ := hfits
      have hp : t.kind.problem? = some .missingArgument := by rw [hk]; rfl
      simpa [finish, Item.Formed, Item.trees] using formed_flat_error hp rest

theorem formed_run {d : Draft} {w : List Token} (hfits : d.Fits w) (h : d.Formed)
    {ts : List Token} (hts : ∀ t ∈ ts, t.IsLexeme) : ∀ i ∈ d.run ts, i.Formed := by
  refine forall_mem_run (D := fun d => (∃ w, d.Fits w) ∧ d.Formed) ?_ ?_ ?_ ⟨⟨w, hfits⟩, h⟩ hts
  · intro t ht
    exact ⟨⟨[t], fits_start t⟩, formed_start ht⟩
  · rintro d d' t ⟨⟨w, hw⟩, -⟩ ht hext
    exact ⟨⟨_, fits_extend hw hext⟩, formed_extend ht hext⟩
  · rintro d ⟨⟨w, hw⟩, hd⟩ next
    exact formed_finish hw hd next

end Draft

theorem formed_items {ts : List Token} (hts : ∀ t ∈ ts, t.IsLexeme) :
    ∀ i ∈ items ts, i.Formed := by
  cases ts with
  | nil => simp [items]
  | cons t ts =>
      obtain ⟨ht, hrest⟩ := List.forall_mem_cons.1 hts
      exact Draft.formed_run (Draft.fits_start t) (Draft.formed_start ht) hrest

/-! ## Groups -/

/-- The numbers of operands in a chain: one in each part that is begun. -/
def Chain.Counted : Chain → Prop
  | .empty => True
  | .operand outer run | .afterAnd outer run =>
    (outer = [] ∨ nodeCount outer = 1) ∧ nodeCount run = 1
  | .afterOr outer => nodeCount outer = 1

/-- What is known about an open group. -/
structure Group.Formed (g : Group) : Prop where
  counted : g.chain.Counted
  unclosed : g.parts.any Tree.isRightParen = false
  parts : AllOf NodeKind.Formed g.parts

theorem nodeCount_closeOr {outer run : List Tree} (hrun : nodeCount run = 1) :
    nodeCount (closeOr outer run) = 1 := by
  cases outer with
  | nil => exact hrun
  | cons x xs => rfl

theorem formed_closeOr {outer run : List Tree} (houter : outer = [] ∨ nodeCount outer = 1)
    (hrun : nodeCount run = 1) (h : AllOf NodeKind.Formed (outer ++ run)) :
    AllOf NodeKind.Formed (closeOr outer run) := by
  rcases houter with rfl | hone
  · exact h
  · cases outer with
    | nil => exact h
    | cons x xs =>
        have htwo : nodeCount (x :: xs ++ run) = 2 := by rw [Tree.nodeCount_append, hone, hrun]
        rw [closeOr_of_ne_nil (by simp), Tree.allOf_cons, Tree.all_node]
        exact ⟨⟨Or.inr htwo, h⟩, by simp⟩

theorem unclosed_closeOr {outer run : List Tree} (h : run.any Tree.isRightParen = false) :
    (closeOr outer run).any Tree.isRightParen = false := by
  cases outer with
  | nil => exact h
  | cons x xs => rfl

namespace Tree

theorem isRightParen_token (t : Token) :
    (token t).isRightParen = decide (t.kind = .rightParen) := by
  simp [isRightParen, tokenKind?]

@[simp] theorem isRightParen_node (k : NodeKind) (cs : List Tree) :
    (node k cs).isRightParen = false := rfl

/-- A binary node with a single operand is formed. -/
theorem formed_binary_one {op : Connective} {run : List Tree} (hrun : nodeCount run = 1)
    (h : AllOf NodeKind.Formed run) : (binary op run).All NodeKind.Formed := by
  rw [binary, all_node]
  exact ⟨Or.inl hrun, h⟩

/-- A binary node with two operands is formed. -/
theorem formed_binary_two {op : Connective} {run : List Tree} (hrun : nodeCount run = 2)
    (h : AllOf NodeKind.Formed run) : (binary op run).All NodeKind.Formed := by
  rw [binary, all_node]
  exact ⟨Or.inr hrun, h⟩

end Tree

/-- The trees of a chain that ends are formed too. -/
theorem Chain.Counted.formed_trees {c : Chain} (h : c.Counted)
    (hparts : AllOf NodeKind.Formed c.parts) : AllOf NodeKind.Formed c.trees := by
  cases c with
  | empty => simp [Chain.trees]
  | operand outer run => exact formed_closeOr h.1 h.2 hparts
  | afterAnd outer run =>
      obtain ⟨houter, hrun⟩ := h
      simp only [Chain.parts, Tree.allOf_append] at hparts
      have hbinary : (Tree.binary .and run).All NodeKind.Formed :=
        Tree.formed_binary_one hrun hparts.2
      exact formed_closeOr houter rfl (by simp [hparts.1, hbinary])
  | afterOr outer => simpa [Chain.trees] using Tree.formed_binary_one h hparts

/-- No tree of a chain that ends is a closing parenthesis. -/
theorem Chain.unclosed_trees {c : Chain} (h : c.parts.any Tree.isRightParen = false) :
    c.trees.any Tree.isRightParen = false := by
  cases c with
  | empty => rfl
  | operand outer run =>
      rw [Chain.parts, List.any_append, Bool.or_eq_false_iff] at h
      exact unclosed_closeOr h.2
  | afterAnd outer run => exact unclosed_closeOr rfl
  | afterOr outer => rfl

namespace Group.Formed

variable {g : Group}

/-- The trees of a group that ends are formed too, and none of them closes it. -/
theorem trees (h : g.Formed) :
    AllOf NodeKind.Formed g.trees ∧ g.trees.any Tree.isRightParen = false := by
  obtain ⟨hcounted, hunclosed, hparts⟩ := h
  rw [Group.parts, Tree.allOf_append] at hparts
  rw [Group.parts, List.any_append, Bool.or_eq_false_iff] at hunclosed
  rw [Group.trees, Tree.allOf_append, List.any_append, hunclosed.1,
    Chain.unclosed_trees hunclosed.2]
  exact ⟨⟨hparts.1, hcounted.formed_trees hparts.2⟩, rfl⟩

theorem addBlank (h : g.Formed) {t : Token} (ht : t.kind = .blank) : (g.addBlank t).Formed := by
  obtain ⟨hcounted, hunclosed, hparts⟩ := h
  have hparen : (Tree.token t).isRightParen = false := by simp [Tree.isRightParen_token, ht]
  rcases g with ⟨settled, chain⟩
  constructor
  · cases chain <;> simp_all [Group.addBlank, Chain.Counted]
  · cases chain <;> simp_all [Group.addBlank, Group.parts, Chain.parts]
  · cases chain <;> simp_all [Group.addBlank, Group.parts, Chain.parts]

theorem addTerm (h : g.Formed) {k : NodeKind} {cs : List Tree}
    (htree : (Tree.node k cs).All NodeKind.Formed) : (g.addTerm (.node k cs)).Formed := by
  obtain ⟨hcounted, hunclosed, hparts⟩ := h
  rcases g with ⟨settled, chain⟩
  have hbinary : ∀ run : List Tree, nodeCount run = 1 → AllOf NodeKind.Formed run →
      (Tree.binary .and (run ++ [.node k cs])).All NodeKind.Formed := fun run hone hrun =>
    Tree.formed_binary_two (by simp [hone]) (by simpa using ⟨hrun, by simpa using htree⟩)
  constructor
  · cases chain <;> simp_all [Group.addTerm, Chain.Counted, Tree.binary]
  · cases chain <;> simp_all [Group.addTerm, Group.parts, Chain.parts, Tree.binary]
  · cases chain <;> simp_all [Group.addTerm, Group.parts, Chain.parts, Chain.Counted]

theorem addKeyword (h : g.Formed) {op : Connective} {t : Token} (ht : t.kind = .keyword op) :
    (g.addKeyword op t).Formed := by
  have htrees := h.trees
  obtain ⟨hcounted, hunclosed, hparts⟩ := h
  have hparen : (Tree.token t).isRightParen = false := by simp [Tree.isRightParen_token, ht]
  have herror : (Tree.leaf .error t).All NodeKind.Formed :=
    Draft.formed_leaf_error (p := .termBeforeKeyword) (by rw [ht]; rfl)
  have hbinary : ∀ run : List Tree, nodeCount run = 1 → AllOf NodeKind.Formed run →
      (Tree.binary .and run).All NodeKind.Formed := fun _ => Tree.formed_binary_one
  -- behind `or` stands what the chain came to, and `and` looks at its last operand only
  rcases g with ⟨settled, chain⟩
  constructor
  · cases op <;> cases chain <;>
      simp_all [Group.addKeyword, Group.addAnd, Group.addOr, Chain.Counted, nodeCount_closeOr,
        Tree.binary]
  · cases op <;> cases chain <;>
      simp_all [Group.addKeyword, Group.addAnd, Group.addOr, Group.parts, Group.trees,
        Chain.parts, Chain.trees, Tree.binary, Tree.leaf]
  · cases op <;> cases chain <;>
      simp_all [Group.addKeyword, Group.addAnd, Group.addOr, Group.parts, Group.trees,
        Chain.parts, Chain.trees, Chain.Counted]

end Group.Formed

/-! ## Regions and texts -/

namespace Nest

/-- Whether every group of a nest is formed. -/
def Formed (n : Nest) : Prop :=
  n.group.Formed ∧ ∀ g ∈ n.around, g.Formed

theorem formed_start : Nest.start.Formed :=
  ⟨⟨trivial, rfl, by simp [start, Group.ofTrees, Group.parts, Chain.parts]⟩, by simp [start]⟩

/-- A closed or ended group makes a clause that is formed. -/
theorem formed_clause {cs : List Tree} (h : AllOf NodeKind.Formed cs) :
    (Tree.node .clause cs).All NodeKind.Formed := by
  rw [Tree.all_node]
  exact ⟨rfl, h⟩

theorem formed_step {n : Nest} {i : Item} (h : n.Formed) (hi : i.Proper) (htrees : i.Formed) :
    (n.step i).Formed := by
  obtain ⟨hg, haround⟩ := h
  rcases n with ⟨g, around⟩
  cases i with
  | blank t => exact ⟨hg.addBlank hi, haround⟩
  | keyword op t => exact ⟨hg.addKeyword hi, haround⟩
  | term tree =>
      obtain ⟨k, cs, rfl, -⟩ := hi
      exact ⟨hg.addTerm (by simpa [Item.Formed, Item.trees] using htrees), haround⟩
  | opening t =>
      have ht : t.kind = .leftParen := hi
      refine ⟨⟨trivial, ?_, ?_⟩, List.forall_mem_cons.2 ⟨hg, haround⟩⟩
      · simp [step, Group.ofTrees, Group.parts, Chain.parts, Tree.isRightParen_token, ht]
      · simp [step, Group.ofTrees, Group.parts, Chain.parts]
  | closing t =>
      have ht : t.kind = .rightParen := hi
      cases around with
      | nil =>
          have herror : (Tree.leaf .error t).All NodeKind.Formed :=
            Draft.formed_leaf_error (p := .unmatchedParen) (by rw [ht]; rfl)
          exact ⟨hg.addTerm herror, haround⟩
      | cons outer around =>
          obtain ⟨houter, hrest⟩ := List.forall_mem_cons.1 haround
          have hclause : (Tree.node .clause (g.trees ++ [.token t])).All NodeKind.Formed :=
            formed_clause (by simpa using hg.trees.1)
          exact ⟨houter.addTerm hclause, hrest⟩

theorem formed_foldl_step {n : Nest} {is : List Item} (h : n.Formed)
    (hproper : ∀ i ∈ is, i.Proper) (hformed : ∀ i ∈ is, i.Formed) :
    (is.foldl step n).Formed := by
  induction is generalizing n with
  | nil => exact h
  | cons i is ih =>
      exact ih (formed_step h (hproper i (by simp)) (hformed i (by simp)))
        (fun x hx => hproper x (by simp [hx])) (fun x hx => hformed x (by simp [hx]))

theorem formed_finishFrom {g : Group} {around : List Group} (hg : g.Formed)
    (haround : ∀ x ∈ around, x.Formed) : AllOf NodeKind.Formed (finishFrom g around) := by
  induction around generalizing g with
  | nil => exact hg.trees.1
  | cons outer around ih =>
      obtain ⟨houter, hrest⟩ := List.forall_mem_cons.1 haround
      exact ih (houter.addTerm (formed_clause hg.trees.1)) hrest

end Nest

/-- **The trees of a region are formed**, whatever is wrong with it. -/
theorem formed_regionTrees {ts : List Token} (hts : ∀ t ∈ ts, t.IsLexeme) :
    AllOf NodeKind.Formed (regionTrees ts) := by
  obtain ⟨hg, haround⟩ :=
    Nest.formed_foldl_step Nest.formed_start (proper_items ts) (formed_items hts)
  exact Nest.formed_finishFrom hg haround

theorem outerOrFormed_regionTrees {ts : List Token} (hts : ∀ t ∈ ts, t.IsLexeme) :
    AllOf NodeKind.OuterOrFormed (regionTrees ts) :=
  (formed_regionTrees hts).imp fun _ _ => Or.inr

theorem isLexeme_of_dropWhile {ts : List Token} (hts : ∀ t ∈ ts, t.IsLexeme) :
    ∀ t ∈ ts.dropWhile Token.isBlank, t.IsLexeme :=
  fun t ht => hts t ((List.dropWhile_sublist _).subset ht)

/-- The lexemes of a text are those of the parts that it is cut into. -/
theorem isLexeme_of_cut {ts run : List Token} {sections : List Section}
    (hts : ∀ t ∈ ts, t.IsLexeme) (h : cutAtHeaders ts = (run, sections)) :
    (∀ t ∈ run, t.IsLexeme) ∧ ∀ s ∈ sections, ∀ t ∈ s.tokens, t.IsLexeme := by
  have hcut : (cutAtHeaders ts).1 ++ (cutAtHeaders ts).2.flatMap Section.tokens = ts :=
    cutFrom_tokens true true ts
  rw [h] at hcut
  constructor
  · intro t ht
    exact hts t (by rw [← hcut]; exact List.mem_append_left _ ht)
  · intro s hs t ht
    exact hts t (by rw [← hcut]; exact List.mem_append_right _ (List.mem_flatMap.2 ⟨s, hs, ht⟩))

theorem Section.isLexeme_of_body {s : Section} (hs : ∀ t ∈ s.tokens, t.IsLexeme) :
    ∀ t ∈ s.body.dropWhile Token.isBlank, t.IsLexeme :=
  isLexeme_of_dropWhile fun t ht => hs t (by simp [tokens, ht])

/-- **The tree of a text is formed below its outer nodes.** -/
theorem outerOrFormed_parseTokens {ts : List Token} (hts : ∀ t ∈ ts, t.IsLexeme) :
    (parseTokens ts).All NodeKind.OuterOrFormed := by
  refine all_parseTokens (fun _ _ => Or.inl) fun region hregion => ?_
  have hlex : ∀ t ∈ region, t.IsLexeme := fun t ht =>
    hts t ((part_of_mem_regionsOf hregion).subset ht)
  exact ⟨outerOrFormed_regionTrees hlex, outerOrFormed_regionTrees (isLexeme_of_dropWhile hlex)⟩

end CardQuery
