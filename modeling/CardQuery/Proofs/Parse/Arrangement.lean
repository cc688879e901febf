import CardQuery.Proofs.Parse.HeaderCut
import CardQuery.Proofs.Parse.Lines
import CardQuery.Proofs.Parse.Nesting
import CardQuery.Proofs.Parse.SingleClause
import CardQuery.Proofs.Tree.Arrangement

/-!
# Every tree that is read is arranged

The parts of a tag are arranged as they are gathered. The operands of binary nodes are arranged by
the order in which terms are joined: what stands before `and` in an open chain is never a row of
`or`. And every group but the outermost begins with the parenthesis that opened it.

Main statements: the trees of a region are arranged (`parts_regionTrees`), and so is the tree of
any text (`parse_arranged`).
-/

set_option autoImplicit false

namespace CardQuery

open CardQuery.Tree (AllOf nodeCount kinds)

/-! ## Items -/

/-- Whether the trees of an item are arranged. -/
def Item.Arranged (i : Item) : Prop :=
  AllOf NodeKind.Parts i.trees

/-- A node of tokens is arranged when its tokens are those that it should hold. -/
theorem Tree.parts_flat {k : NodeKind} {ts : List Token} (h : k.Parts (ts.map .token)) :
    (Tree.flat k ts).All NodeKind.Parts := by
  rw [flat, all_node]
  exact ⟨h, allOf_map_token ts⟩

theorem Tree.parts_leaf {k : NodeKind} {t : Token} (h : k.Parts [.token t]) :
    (Tree.leaf k t).All NodeKind.Parts := by
  have hflat : k.Parts ([t].map .token) := h
  exact Tree.parts_flat hflat

namespace Draft

/-- Whether the item that is complete, if one is, is arranged. -/
def Arranged : Draft → Prop
  | .complete i => i.Arranged
  | _ => True

theorem arranged_tagOf {sign : Option Token} (hsign : ∀ m ∈ sign, m.kind = .minus)
    {parts : List Tree} (hnodes : ∀ c ∈ parts, c.isNode = true)
    (hkinds : NodeKind.areTagParts (sign.toList.map (fun _ => .sign) ++ kinds parts) = true)
    (hparts : AllOf NodeKind.Parts parts) : (tagOf sign parts).Arranged := by
  have htag : (Tree.node .tag (sign.toList.map (Tree.leaf .sign) ++ parts)).All NodeKind.Parts := by
    cases sign with
    | none => exact (Tree.all_node ..).2 ⟨⟨hnodes, hkinds⟩, hparts⟩
    | some m =>
        have hleaf : (Tree.leaf .sign m).All NodeKind.Parts :=
          Tree.parts_leaf ⟨m, rfl, hsign m rfl⟩
        refine (Tree.all_node ..).2 ⟨⟨?_, hkinds⟩, by simpa [hleaf] using hparts⟩
        exact List.forall_mem_cons.2 ⟨rfl, hnodes⟩
  simpa [Item.Arranged, tagOf, Item.trees] using htag

theorem arranged_start (t : Token) : (start t).Arranged := by
  unfold start
  cases hk : t.kind with
  | literal k =>
      have hleaf : (Tree.leaf (.literal k) t).All NodeKind.Parts := Tree.parts_leaf ⟨t, rfl, hk⟩
      simpa [Arranged, Item.Arranged, Item.trees] using hleaf
  | unknown =>
      have hleaf : (Tree.leaf .error t).All NodeKind.Parts :=
        Tree.parts_leaf ⟨[t], by simp, rfl⟩
      simpa [Arranged, Item.Arranged, Item.trees] using hleaf
  | _ => simp [Arranged, Item.Arranged, Item.trees]

section Leaves

variable {a op : Token} (ha : a.kind = .word) (hop : op.kind.isComparison = true)
include ha hop

/-- A tag of an argument and a comparison with the value `v`. -/
theorem arranged_tagOf_value {sign : Option Token} (hsign : ∀ m ∈ sign, m.kind = .minus)
    {k : NodeKind} {ts : List Token} (hk : k.isTagValue = true) (hv : k.Parts (ts.map .token)) :
    (tagOf sign [.leaf .argument a, .leaf .operator op, .flat k ts]).Arranged := by
  have hargument : (Tree.leaf .argument a).All NodeKind.Parts := Tree.parts_leaf ⟨a, rfl, ha⟩
  have hoperator : (Tree.leaf .operator op).All NodeKind.Parts := Tree.parts_leaf ⟨op, rfl, hop⟩
  refine arranged_tagOf hsign (by simp [Tree.isNode_leaf, Tree.isNode_flat]) ?_
    (by simp [hargument, hoperator, Tree.parts_flat hv])
  cases sign <;> cases k <;> cases hk <;> rfl

theorem arranged_tagOf_operator {sign : Option Token} (hsign : ∀ m ∈ sign, m.kind = .minus) :
    (tagOf sign [.leaf .argument a, .leaf .operator op]).Arranged := by
  have hargument : (Tree.leaf .argument a).All NodeKind.Parts := Tree.parts_leaf ⟨a, rfl, ha⟩
  have hoperator : (Tree.leaf .operator op).All NodeKind.Parts := Tree.parts_leaf ⟨op, rfl, hop⟩
  refine arranged_tagOf hsign (by simp [Tree.isNode_leaf]) ?_ (by simp [hargument, hoperator])
  cases sign <;> rfl

end Leaves

theorem arranged_extend {d d' : Draft} {w : List Token} {t : Token} (hfits : d.Fits w)
    (h : d.extend t = some d') : d'.Arranged := by
  cases d <;> simp only [extend] at h
  case complete => cases h
  case minus m =>
    split at h <;> cases h
    · trivial
    · next k hk =>
        have hleaf : (Tree.leaf (.literal k) t).All NodeKind.Parts := Tree.parts_leaf ⟨t, rfl, hk⟩
        exact arranged_tagOf (by simpa using hfits.2) (by simp [Tree.isNode_leaf]) rfl
          (by simpa using hleaf)
  case tag sign a op =>
    obtain ⟨-, hsign, ha, hop⟩ := hfits
    split at h <;> cases h <;> try trivial
    · next k hk =>
        have hvalue : (NodeKind.literal k).Parts ([t].map .token) := ⟨t, rfl, hk⟩
        exact arranged_tagOf_value ha hop hsign rfl hvalue
    · have hvalue : NodeKind.value.Parts ([⟨.word, t.text⟩].map .token) :=
        ⟨[⟨.word, t.text⟩], by simp, rfl, by simp⟩
      exact arranged_tagOf_value ha hop hsign rfl hvalue
  all_goals
    split at h <;> cases h
    all_goals trivial

theorem arranged_finish {d : Draft} {w : List Token} (hfits : d.Fits w) (h : d.Arranged)
    (next : Option TokenKind) : (d.finish next).Arranged := by
  cases d with
  | complete i => exact h
  | minus m =>
      simp only [finish]
      split
      · have hleaf : (Tree.leaf .error m).All NodeKind.Parts :=
          Tree.parts_leaf ⟨[m], by simp, rfl⟩
        simpa [Item.Arranged, Item.trees] using hleaf
      · exact arranged_tagOf (by simpa using hfits.2) (by simp) rfl (by simp)
  | word sign a =>
      obtain ⟨-, hsign, ha⟩ := hfits
      have hleaf : (Tree.leaf .argument a).All NodeKind.Parts := Tree.parts_leaf ⟨a, rfl, ha⟩
      cases sign with
      | none => simpa [finish, Item.Arranged, Item.trees] using hleaf
      | some m =>
          exact arranged_tagOf hsign (by simp [Tree.isNode_leaf]) rfl (by simpa using hleaf)
  | tag sign a op =>
      obtain ⟨-, hsign, ha, hop⟩ := hfits
      exact arranged_tagOf_operator ha hop hsign
  | value sign a op words =>
      obtain ⟨-, hsign, ha, hop, hne, hwords⟩ := hfits
      exact arranged_tagOf_value ha hop hsign rfl ⟨words, hne, rfl, hwords⟩
  | stray ts =>
      obtain ⟨c, t, rest, rfl, -⟩ := hfits
      have hflat : (Tree.flat .error (t :: rest)).All NodeKind.Parts :=
        Tree.parts_flat ⟨t :: rest, by simp, rfl⟩
      simpa [finish, Item.Arranged, Item.trees] using hflat

theorem arranged_run {d : Draft} {w : List Token} (hfits : d.Fits w) (h : d.Arranged)
    (ts : List Token) : ∀ i ∈ d.run ts, i.Arranged := by
  refine forall_mem_run (P := fun _ => True) (D := fun d => (∃ w, d.Fits w) ∧ d.Arranged)
    ?_ ?_ ?_ ⟨⟨w, hfits⟩, h⟩ fun _ _ => trivial
  · exact fun t _ => ⟨⟨[t], fits_start t⟩, arranged_start t⟩
  · rintro d d' t ⟨⟨w, hw⟩, -⟩ - hext
    exact ⟨⟨_, fits_extend hw hext⟩, arranged_extend hw hext⟩
  · rintro d ⟨⟨w, hw⟩, hd⟩ next
    exact arranged_finish hw hd next

end Draft

theorem arranged_items (ts : List Token) : ∀ i ∈ items ts, i.Arranged := by
  cases ts with
  | nil => simp [items]
  | cons t ts => exact Draft.arranged_run (Draft.fits_start t) (Draft.arranged_start t) ts

/-! ## Operands -/

namespace Tree

theorem exists_kinds_eq {cs : List Tree} (h : nodeCount cs = 1) : ∃ k, kinds cs = [k] :=
  List.length_eq_one_iff.1 ((length_kinds cs).trans h)

/-- A binary node with its left operand alone. -/
theorem parts_binary_one {op : Connective} {run : List Tree} (hrun : nodeCount run = 1)
    (hlayer : op = .and → .binary .or ∉ kinds run) (h : AllOf NodeKind.Parts run) :
    (binary op run).All NodeKind.Parts := by
  obtain ⟨k, hk⟩ := exists_kinds_eq hrun
  rw [hk, List.mem_singleton] at hlayer
  rw [binary, all_node]
  exact ⟨⟨k, none, hk, fun hand => Ne.symm (hlayer hand), by simp⟩, h⟩

/-- A binary node with both operands. -/
theorem parts_binary_two {op : Connective} {left right : List Tree} (hleft : nodeCount left = 1)
    (hlayer : op = .and → .binary .or ∉ kinds left) {k : NodeKind} (hright : kinds right = [k])
    (hor : k ≠ .binary .or) (hand : op = .and → k ≠ .binary .and)
    (h : AllOf NodeKind.Parts (left ++ right)) :
    (binary op (left ++ right)).All NodeKind.Parts := by
  obtain ⟨j, hj⟩ := exists_kinds_eq hleft
  rw [hj, List.mem_singleton] at hlayer
  rw [binary, all_node]
  refine ⟨⟨j, some k, by simp [hj, hright], fun hand => Ne.symm (hlayer hand), ?_⟩, h⟩
  intro i hi
  obtain rfl : k = i := by simpa using hi
  exact ⟨hor, hand⟩

end Tree

/-- A run that holds no row of `or` can be its right operand. -/
theorem parts_closeOr {outer run : List Tree} (houter : outer = [] ∨ nodeCount outer = 1)
    (hrun : nodeCount run = 1) (hlayer : .binary .or ∉ kinds run)
    (h : AllOf NodeKind.Parts (outer ++ run)) : AllOf NodeKind.Parts (closeOr outer run) := by
  rcases houter with rfl | hone
  · exact h
  · cases outer with
    | nil => exact h
    | cons x xs =>
        obtain ⟨k, hk⟩ := Tree.exists_kinds_eq hrun
        rw [hk, List.mem_singleton] at hlayer
        have hbinary : (Tree.binary .or (x :: xs ++ run)).All NodeKind.Parts :=
          Tree.parts_binary_two hone (by simp) hk (Ne.symm hlayer) (by simp) h
        rw [closeOr_of_ne_nil (by simp), Tree.allOf_cons]
        exact ⟨hbinary, by simp⟩

/-! ## Groups -/

/-- Whether the operands of `and` in a chain are no rows of `or`. -/
def Chain.Layered : Chain → Prop
  | .operand _ run | .afterAnd _ run => .binary .or ∉ kinds run
  | .empty | .afterOr _ => True

/-- What is known about how an open group is arranged. -/
structure Group.Arranged (g : Group) : Prop where
  layered : g.chain.Layered
  parts : AllOf NodeKind.Parts g.parts

/-- The trees of a chain that ends are arranged too. -/
theorem Chain.parts_trees {c : Chain} (hcounted : c.Counted) (hlayered : c.Layered)
    (h : AllOf NodeKind.Parts c.parts) : AllOf NodeKind.Parts c.trees := by
  cases c with
  | empty => simp [Chain.trees]
  | operand outer run => exact parts_closeOr hcounted.1 hcounted.2 hlayered h
  | afterAnd outer run =>
      obtain ⟨houter, hrun⟩ := hcounted
      simp only [Chain.parts, Tree.allOf_append] at h
      have hbinary : (Tree.binary .and run).All NodeKind.Parts :=
        Tree.parts_binary_one hrun (fun _ => hlayered) h.2
      exact parts_closeOr houter rfl (by simp [Tree.binary]) (by simp [h.1, hbinary])
  | afterOr outer =>
      have hbinary : (Tree.binary .or outer).All NodeKind.Parts :=
        Tree.parts_binary_one hcounted (by simp) h
      simpa [Chain.trees] using hbinary

namespace Group.Arranged

variable {g : Group} (hformed : g.Formed) (h : g.Arranged)
include hformed h

/-- The trees of a group that ends are arranged too. -/
theorem trees : AllOf NodeKind.Parts g.trees := by
  have hparts := h.parts
  rw [Group.parts, Tree.allOf_append] at hparts
  rw [Group.trees, Tree.allOf_append]
  exact ⟨hparts.1, Chain.parts_trees hformed.counted h.layered hparts.2⟩

omit hformed in
theorem addBlank (t : Token) : (g.addBlank t).Arranged := by
  obtain ⟨hlayered, hparts⟩ := h
  rcases g with ⟨settled, chain⟩
  constructor
  · cases chain <;> simp_all [Group.addBlank, Chain.Layered]
  · cases chain <;> simp_all [Group.addBlank, Group.parts, Chain.parts]

theorem addTerm {k : NodeKind} {cs : List Tree} (hk : ∀ op, k ≠ .binary op)
    (htree : (Tree.node k cs).All NodeKind.Parts) : (g.addTerm (.node k cs)).Arranged := by
  obtain ⟨hlayered, hparts⟩ := h
  obtain ⟨hcounted, -, -⟩ := hformed
  rcases g with ⟨settled, chain⟩
  have hbinary : ∀ run : List Tree, nodeCount run = 1 → .binary .or ∉ kinds run →
      AllOf NodeKind.Parts run → (Tree.binary .and (run ++ [.node k cs])).All NodeKind.Parts :=
    fun run hone hlayer hrun =>
      Tree.parts_binary_two hone (fun _ => hlayer) rfl (hk .or) (fun _ => hk .and)
        (by simpa using ⟨hrun, by simpa using htree⟩)
  have hor : .binary .or ≠ k := (hk .or).symm
  constructor
  · cases chain <;> simp_all [Group.addTerm, Chain.Layered, Tree.binary]
  · cases chain <;> simp_all [Group.addTerm, Group.parts, Chain.parts, Chain.Counted, Chain.Layered]

theorem addKeyword (op : Connective) (t : Token) : (g.addKeyword op t).Arranged := by
  have htrees := trees hformed h
  obtain ⟨hlayered, hparts⟩ := h
  obtain ⟨hcounted, -, -⟩ := hformed
  have herror : (Tree.leaf .error t).All NodeKind.Parts :=
    Tree.parts_leaf ⟨[t], by simp, rfl⟩
  have hbinary : ∀ run : List Tree, nodeCount run = 1 → .binary .or ∉ kinds run →
      AllOf NodeKind.Parts run → (Tree.binary .and run).All NodeKind.Parts :=
    fun run hone hlayer hrun => Tree.parts_binary_one hone (fun _ => hlayer) hrun
  -- behind `or` stands what the chain came to, and `and` looks at its last operand only
  rcases g with ⟨settled, chain⟩
  constructor
  · cases op <;> cases chain <;>
      simp_all [Group.addKeyword, Group.addAnd, Group.addOr, Chain.Layered, Tree.binary]
  · cases op <;> cases chain <;>
      simp_all [Group.addKeyword, Group.addAnd, Group.addOr, Group.parts, Group.trees,
        Chain.parts, Chain.trees, Chain.Counted, Chain.Layered]

end Group.Arranged

/-! ## Clauses -/

/-- Whether a group begins with the parenthesis that opened it. -/
def Group.Opened (g : Group) : Prop :=
  ∃ t rest, g.settled = .token t :: rest ∧ t.kind = .leftParen

namespace Group

theorem Opened.of_settled {g g' : Group} (h : g.Opened) (hsettled : g.settled <+: g'.settled) :
    g'.Opened := by
  obtain ⟨t, rest, hg, ht⟩ := h
  obtain ⟨more, hmore⟩ := hsettled
  exact ⟨t, rest ++ more, by rw [← hmore, hg, List.cons_append], ht⟩

/-- What is settled in a group stays at its start. -/
theorem settled_addBlank (g : Group) (t : Token) : g.settled <+: (g.addBlank t).settled := by
  rcases g with ⟨settled, chain⟩
  cases chain <;> simp [addBlank]

theorem settled_addTerm (g : Group) (tree : Tree) : g.settled <+: (g.addTerm tree).settled := by
  rcases g with ⟨settled, chain⟩
  cases chain <;> simp [addTerm]

theorem settled_addKeyword (g : Group) (op : Connective) (t : Token) :
    g.settled <+: (g.addKeyword op t).settled := by
  rcases g with ⟨settled, chain⟩
  cases op <;> cases chain <;> simp [addKeyword, addAnd, addOr]

end Group

/-- A clause is arranged when its group was opened and none of its trees closes it but the last. -/
theorem Group.Opened.parts_clause {g : Group} (hopened : g.Opened)
    (hunclosed : g.trees.any Tree.isRightParen = false) (hparts : AllOf NodeKind.Parts g.trees)
    (last : Option Token) :
    (Tree.node .clause (g.trees ++ last.toList.map .token)).All NodeKind.Parts := by
  obtain ⟨t, rest, hsettled, ht⟩ := hopened
  rw [Tree.all_node, Tree.allOf_append]
  refine ⟨⟨⟨t, rest ++ g.chain.trees ++ last.toList.map .token, by simp [trees, hsettled], ht⟩, ?_⟩,
    hparts, Tree.allOf_map_token _⟩
  cases last with
  | none =>
      rw [Option.toList_none, List.map_nil, List.append_nil, List.any_eq_false]
      exact fun c hc => List.any_eq_false.1 hunclosed c (List.dropLast_subset _ hc)
  | some t => simpa using hunclosed

namespace Nest

/-- Whether every group that stands inside another was opened. -/
def OpenedFrom (g : Group) : List Group → Prop
  | [] => True
  | outer :: around => g.Opened ∧ OpenedFrom outer around

theorem OpenedFrom.of_settled {g g' : Group} {around : List Group} (h : OpenedFrom g around)
    (hsettled : g.settled <+: g'.settled) : OpenedFrom g' around := by
  cases around with
  | nil => trivial
  | cons outer around => exact ⟨h.1.of_settled hsettled, h.2⟩

/-- What is known about how the groups of a nest are arranged. -/
structure Arranged (n : Nest) : Prop where
  group : n.group.Arranged
  around : ∀ g ∈ n.around, g.Arranged
  opened : OpenedFrom n.group n.around

theorem arranged_start : Nest.start.Arranged :=
  ⟨⟨trivial, by simp [start, Group.ofTrees, Group.parts, Chain.parts]⟩, by simp [start], trivial⟩

theorem arranged_step {n : Nest} {i : Item} (hformed : n.Formed) (h : n.Arranged) (hi : i.Proper)
    (htrees : i.Arranged) : (n.step i).Arranged := by
  obtain ⟨hgf, haroundf⟩ := hformed
  obtain ⟨hg, haround, hopened⟩ := h
  rcases n with ⟨g, around⟩
  cases i with
  | blank t => exact ⟨hg.addBlank t, haround, hopened.of_settled (g.settled_addBlank t)⟩
  | keyword op t =>
      exact ⟨hg.addKeyword hgf op t, haround, hopened.of_settled (g.settled_addKeyword op t)⟩
  | term tree =>
      obtain ⟨k, cs, rfl, hk⟩ := hi
      have hbinary : ∀ op, k ≠ .binary op := by
        rintro op rfl
        simp [NodeKind.isTerm] at hk
      exact ⟨hg.addTerm hgf hbinary (by simpa [Item.Arranged, Item.trees] using htrees), haround,
        hopened.of_settled (g.settled_addTerm _)⟩
  | opening t =>
      refine ⟨⟨trivial, ?_⟩, List.forall_mem_cons.2 ⟨hg, haround⟩, ⟨t, [], rfl, hi⟩, hopened⟩
      simp [step, Group.ofTrees, Group.parts, Chain.parts]
  | closing t =>
      cases around with
      | nil =>
          have herror : (Tree.leaf .error t).All NodeKind.Parts :=
            Tree.parts_leaf ⟨[t], by simp, rfl⟩
          exact ⟨hg.addTerm hgf (by simp) herror, haround, trivial⟩
      | cons outer around =>
          obtain ⟨houterf, -⟩ := List.forall_mem_cons.1 haroundf
          obtain ⟨houter, hrest⟩ := List.forall_mem_cons.1 haround
          have hclause : (Tree.node .clause (g.trees ++ [.token t])).All NodeKind.Parts :=
            hopened.1.parts_clause hgf.trees.2 (hg.trees hgf) (some t)
          exact ⟨houter.addTerm houterf (by simp) hclause, hrest,
            hopened.2.of_settled (outer.settled_addTerm _)⟩

theorem arranged_foldl_step {n : Nest} {is : List Item} (hformed : n.Formed) (h : n.Arranged)
    (hproper : ∀ i ∈ is, i.Proper) (hitems : ∀ i ∈ is, i.Formed ∧ i.Arranged) :
    (is.foldl step n).Arranged := by
  induction is generalizing n with
  | nil => exact h
  | cons i is ih =>
      obtain ⟨hi, hrest⟩ := List.forall_mem_cons.1 hproper
      obtain ⟨⟨hif, hia⟩, hrestf⟩ := List.forall_mem_cons.1 hitems
      exact ih (formed_step hformed hi hif) (arranged_step hformed h hi hia) hrest hrestf

theorem parts_finishFrom {g : Group} {around : List Group} (hgf : g.Formed) (hg : g.Arranged)
    (haroundf : ∀ x ∈ around, x.Formed) (haround : ∀ x ∈ around, x.Arranged)
    (hopened : OpenedFrom g around) : AllOf NodeKind.Parts (finishFrom g around) := by
  induction around generalizing g with
  | nil => exact hg.trees hgf
  | cons outer around ih =>
      obtain ⟨houterf, hrestf⟩ := List.forall_mem_cons.1 haroundf
      obtain ⟨houter, hrest⟩ := List.forall_mem_cons.1 haround
      have hclause : (Tree.node .clause g.trees).All NodeKind.Parts := by
        simpa using hopened.1.parts_clause hgf.trees.2 (hg.trees hgf) none
      exact ih (houterf.addTerm (formed_clause hgf.trees.1))
        (houter.addTerm houterf (by simp) hclause)
        hrestf hrest (hopened.2.of_settled (outer.settled_addTerm _))

end Nest

/-! ## Regions -/

/-- **The trees of a region are arranged**, whatever is wrong with it. -/
theorem parts_regionTrees {ts : List Token} (hts : ∀ t ∈ ts, t.IsLexeme) :
    AllOf NodeKind.Parts (regionTrees ts) := by
  have hitems : ∀ i ∈ items ts, i.Formed ∧ i.Arranged := fun i hi =>
    ⟨formed_items hts i hi, arranged_items ts i hi⟩
  obtain ⟨hgf, haroundf⟩ :=
    Nest.formed_foldl_step Nest.formed_start (proper_items ts) fun i hi => (hitems i hi).1
  obtain ⟨hg, haround, hopened⟩ :=
    Nest.arranged_foldl_step Nest.formed_start Nest.arranged_start (proper_items ts) hitems
  exact Nest.parts_finishFrom hgf hg haroundf haround hopened

theorem arranged_regionTrees {ts : List Token} (hts : ∀ t ∈ ts, t.IsLexeme) :
    AllOf NodeKind.Arranged (regionTrees ts) :=
  ((nests_regionTrees ts).2.and (parts_regionTrees hts)).imp fun _ _ h => ⟨h.1, h.2⟩

/-! ## Texts -/

theorem kinds_domainTrees (run : List Token) :
    kinds (domainTrees run) = [] ∨ kinds (domainTrees run) = [.domain] := by
  unfold domainTrees
  split <;> simp

theorem kinds_sections (sections : List Section) :
    kinds (sections.map Section.tree) = List.replicate sections.length .query := by
  induction sections with
  | nil => rfl
  | cons s sections ih => simp [Section.tree, ih, List.replicate_succ]

/-- The tree of a text with headers has a domain or none, and a query for each header. -/
theorem isOutline_of_sections (run : List Token) {sections : List Section} (hne : sections ≠ []) :
    NodeKind.IsOutline (kinds (domainTrees run ++ sections.map Section.tree)) := by
  obtain ⟨s, rest, rfl⟩ := List.exists_cons_of_ne_nil hne
  refine ⟨rest.length, ?_⟩
  rw [Tree.kinds_append, kinds_sections]
  rcases kinds_domainTrees run with h | h
  · exact Or.inl (by rw [h]; rfl)
  · exact Or.inr (by rw [h]; rfl)

/-- What stands in a program: operands when no header does, and an outline else. -/
theorem children_parseTokens (ts : List Token) :
    (headers ts = [] ∧ (∀ c ∈ (parseTokens ts).children, c.kind?.all NodeKind.isOperand = true)) ∨
      headers ts ≠ [] ∧ NodeKind.IsOutline (kinds (parseTokens ts).children) := by
  have hlength := length_headers ts
  unfold parseTokens
  split
  · next run hcut =>
      rw [hcut] at hlength
      exact Or.inl ⟨List.eq_nil_of_length_eq_zero hlength, (nests_regionTrees run).1⟩
  · next run sections hne hcut =>
      rw [hcut] at hlength
      refine Or.inr ⟨fun hnil => hne ?_, isOutline_of_sections run hne⟩
      rw [hnil] at hlength
      exact List.eq_nil_of_length_eq_zero hlength.symm

theorem arranged_program (ts : List Token) :
    NodeKind.program.Arranged (parseTokens ts).children := by
  rcases children_parseTokens ts with ⟨-, hoperands⟩ | ⟨-, houtline⟩
  · refine ⟨fun c hc => ?_, Or.inl hoperands⟩
    have hoperand := hoperands c hc
    cases hkind : c.kind? with
    | none => rfl
    | some k =>
        have hk : k.isOperand = true := by simpa [hkind] using hoperand
        simp [NodeKind.admits, hk]
  · exact ⟨NodeKind.nests_iff_kinds.2 houtline.admits, Or.inr houtline⟩

theorem kinds_children_section (s : Section) :
    kinds s.tree.children = [.queryName, .queryBody] := by
  simp [Section.tree, Tree.children]

theorem arranged_parseTokens {ts : List Token} (hts : ∀ t ∈ ts, t.IsLexeme) :
    (parseTokens ts).All NodeKind.Arranged := by
  refine all_parseTokens_of_outer (arranged_program ts) ?_ ?_ ?_
  · rintro region - k (rfl | rfl)
    · exact ⟨(nests_regionTrees _).1, trivial⟩
    · exact ⟨(nests_regionTrees _).1, trivial⟩
  · intro s hs
    obtain ⟨-, hname, -⟩ := name_of_mem_cutFrom hs
    have hkinds := kinds_children_section s
    refine ⟨⟨NodeKind.nests_iff_kinds.2 ?_, hkinds⟩, ⟨?_, s.name, rfl, hname⟩⟩
    · rw [hkinds]
      decide
    · simp [NodeKind.Nests]
  · intro region hregion
    have hlex : ∀ t ∈ region, t.IsLexeme := fun t ht =>
      hts t ((part_of_mem_regionsOf hregion).subset ht)
    exact ⟨arranged_regionTrees hlex, arranged_regionTrees (isLexeme_of_dropWhile hlex)⟩

/-- Every node of the tree of a text is arranged. -/
theorem all_arranged_parse (t : Text) : (parse t).All NodeKind.Arranged :=
  arranged_parseTokens fun _ hx => isLexeme_of_mem_tokenize hx

/-! ## Texts without errors -/

/-- Whether a node, if it is a region or a clause, has at most one child that is an expression. -/
def NodeKind.Single (k : NodeKind) (cs : List Tree) : Prop :=
  k.isRegion = true ∨ k = .clause → (cs.filter Tree.isExpression).length ≤ 1

/-- A region without errors has at most one expression. -/
theorem length_filter_regionTrees {ts : List Token}
    (h : Tree.faultlessEach (regionTrees ts) = true) :
    ((regionTrees ts).filter Tree.isExpression).length ≤ 1 := by
  obtain ⟨o, ho⟩ := reads_of_faultless h
  rw [← Tree.length_filter_squeezeEach, ho.squeezeEach_regionTrees]
  cases o with
  | none => simp
  | some t => exact List.length_filter_le _ _

/-- The regions and clauses among the nodes below a region are clauses. -/
theorem single_regionTrees {ts : List Token} (hts : ∀ t ∈ ts, t.IsLexeme)
    (h : Tree.faultlessEach (regionTrees ts) = true) :
    AllOf NodeKind.Single (regionTrees ts) := by
  refine ((singleClause_regionTrees h).and (formed_regionTrees hts)).imp fun k cs hk => ?_
  rintro (hregion | hclause)
  · have hformed := hk.2
    cases k <;> cases hregion <;> cases hformed
  · exact hk.1 hclause

/-- A program with an outline has no expression among its children. -/
theorem NodeKind.IsOutline.filter_isExpression {cs : List Tree} (h : IsOutline (kinds cs)) :
    cs.filter Tree.isExpression = [] := by
  rw [List.filter_eq_nil_iff]
  intro c hc hexpr
  cases c with
  | token t => cases hexpr
  | node k ds =>
      have hmem : k ∈ kinds cs := Tree.mem_kinds.2 ⟨_, hc, rfl⟩
      obtain ⟨n, houtline | houtline⟩ := h
      · rw [houtline] at hmem
        rw [(List.mem_replicate.1 hmem).2] at hexpr
        cases hexpr
      · rw [houtline] at hmem
        rcases List.mem_cons.1 hmem with rfl | hmem
        · cases hexpr
        · rw [(List.mem_replicate.1 hmem).2] at hexpr
          cases hexpr

/-- **In a text without errors each region and each clause has at most one expression.** -/
theorem all_single_parse {t : Text} (h : syntaxErrors (parse t) = []) :
    (parse t).All NodeKind.Single := by
  rw [syntaxErrors_eq_nil_iff, parse, faultless_parseTokens_iff] at h
  have hsolid : ∀ region ∈ regionsOf (tokenize t),
      Tree.faultlessEach (regionTrees (region.dropWhile Token.isBlank)) = true :=
    fun region hregion => by
      rw [faultlessEach_regionTrees_dropWhile]
      exact h region hregion
  have hlex : ∀ region ∈ regionsOf (tokenize t), ∀ x ∈ region, x.IsLexeme :=
    fun region hregion x hx =>
      isLexeme_of_mem_tokenize ((part_of_mem_regionsOf hregion).subset hx)
  refine all_parseTokens_of_outer (fun _ => ?_) ?_ ?_ ?_
  · rcases children_parseTokens (tokenize t) with ⟨hnone, -⟩ | ⟨-, houtline⟩
    · -- without headers the program is the one region of the text
      rcases hcut : cutAtHeaders (tokenize t) with ⟨run, sections⟩
      have hlength := length_headers (tokenize t)
      rw [hnone, hcut] at hlength
      obtain rfl : sections = [] := List.eq_nil_of_length_eq_zero hlength.symm
      rw [parseTokens, hcut]
      exact length_filter_regionTrees (h run (by simp [regionsOf, hcut]))
    · simp [houtline.filter_isExpression]
  · exact fun region hregion k _ _ => length_filter_regionTrees (hsolid region hregion)
  · intro s _
    constructor <;> rintro (hk | hk) <;> cases hk
  · exact fun region hregion => ⟨single_regionTrees (hlex region hregion) (h region hregion),
      single_regionTrees (isLexeme_of_dropWhile (hlex region hregion)) (hsolid region hregion)⟩

/-- **The shape of every tree.** Whatever is wrong with a text, its tree is a program in which every
node has the children that its kind asks for, in order: operands where there are no headers, and a
domain or none and then the queries where there are. Without errors, each region and each clause
has at most one expression. -/
theorem parse_arranged (t : Text) :
    (parse t).kind? = some .program ∧ (parse t).All NodeKind.Arranged ∧
      (headers (tokenize t) = [] →
        ∀ c ∈ (parse t).children, c.kind?.all NodeKind.isOperand = true) ∧
      (headers (tokenize t) ≠ [] → NodeKind.IsOutline (kinds (parse t).children)) ∧
      (syntaxErrors (parse t) = [] → (parse t).All NodeKind.Single) := by
  have hprogram : (parse t).kind? = some .program := by
    unfold parse parseTokens
    split <;> rfl
  refine ⟨hprogram, arranged_parseTokens fun _ hx => isLexeme_of_mem_tokenize hx, fun hnone => ?_,
    fun hsome => ?_, all_single_parse⟩
  · rcases children_parseTokens (tokenize t) with ⟨-, hoperands⟩ | ⟨hsome, -⟩
    · exact hoperands
    · exact absurd hnone hsome
  · rcases children_parseTokens (tokenize t) with ⟨hnone, -⟩ | ⟨-, houtline⟩
    · exact absurd hnone hsome
    · exact houtline

/-- A clause that a header ends, and a text without errors. -/
theorem parse_arranged_samples :
    headers (tokenize "(a\nq: b) -".toList) ≠ [] ∧
      NodeKind.IsOutline (kinds (parse "(a\nq: b) -".toList).children) ∧
      syntaxErrors (parse "a or (b c)".toList) = [] ∧
      (parse "a or (b c)".toList).All NodeKind.Single := by
  have hheader : headers (tokenize "(a\nq: b) -".toList) ≠ [] := by decide +kernel
  have hclean : syntaxErrors (parse "a or (b c)".toList) = [] := by decide +kernel
  exact ⟨hheader, (parse_arranged _).2.2.2.1 hheader, hclean, (parse_arranged _).2.2.2.2 hclean⟩

end CardQuery
