import CardQuery.Proofs.Cursor.Exact
import CardQuery.Proofs.Cursor.Touching
import CardQuery.Proofs.Query.LastSetting

/-!
# Between terms

An offset in the body of a query that touches no term is in a clause, in a binary node or in the
body itself. What this node says is known there, and the walk up adds what its other expressions
say, so the tags of the whole body are known but for those in operands of `or`
(`Climb.saysAll`). The domain is added for the query. Between the colon of a header and the body
nothing is read of the body.

Main statement: `Tree.constraintsAt_between_terms`.
-/

set_option autoImplicit false

namespace CardQuery

open CardQuery.Tree (AllOf)

/-! ## What constraints say -/

/-- Whether constraints require a tag, or forbid it if it has a sign. -/
def Constraints.Says (k : Constraints) (tag : QueryTag) : Prop :=
  if tag.isNegated then tag.positive ∈ k.forbidden else tag ∈ k.required

namespace Constraints

variable {k l : Constraints} {tag : QueryTag}

theorem Says.append_right (h : k.Says tag) (l : Constraints) : (k.append l).Says tag := by
  unfold Says at h ⊢
  split at h
  · next hsign => rw [if_pos hsign]; exact List.mem_append_left _ h
  · next hsign => rw [if_neg hsign]; exact List.mem_append_left _ h

theorem Says.append_left (h : l.Says tag) (k : Constraints) : (k.append l).Says tag := by
  unfold Says at h ⊢
  split at h
  · next hsign => rw [if_pos hsign]; exact List.mem_append_right _ h
  · next hsign => rw [if_neg hsign]; exact List.mem_append_right _ h

theorem says_ofTerm {t : Tree} (h : QueryTag.ofTerm? t = some tag) : (ofTerm t).Says tag := by
  rw [ofTerm, h, Says]
  cases hsign : tag.isNegated <;> simp [hsign]

end Constraints

/-- Any kind but that of an `or`. -/
def NodeKind.isNotOr (k : NodeKind) : Bool :=
  k ≠ .binary .or

/-- Whether constraints say all that a tree asks for outside the operands of `or`. -/
def Constraints.SaysAll (k : Constraints) (t : Tree) : Prop :=
  ∀ tag ∈ t.asked NodeKind.isNotOr, k.Says tag

/-! ## What a subtree says -/

namespace Tree

mutual

/-- An operand says what it asks for. -/
theorem saysAll_classify {t : Tree} (hoperand : t.kind?.all NodeKind.isOperand = true)
    (h : t.All NodeKind.Arranged) : t.classify.SaysAll t := by
  intro tag htag
  cases t with
  | token t => simp at htag
  | node k cs =>
      rw [all_node] at h
      have hjoined : k.joins? = some .and → (∀ c ∈ cs, c.kind?.all NodeKind.isOperand = true) →
          tag ∈ askedEach NodeKind.isNotOr cs → (node k cs).classify.Says tag := by
        intro hk hoperands htag
        rw [classify_of_joins hk h.1.nests, concat_classify_filter hoperands]
        exact says_concat hoperands h.2 tag htag
      cases k with
      | tag | argument | literal =>
          rw [asked_of_isTerm rfl, Option.mem_toList] at htag
          rw [classify]
          exact Constraints.says_ofTerm htag
      | clause =>
          rw [asked_of_enters rfl rfl] at htag
          exact hjoined rfl h.1.nests htag
      | binary op =>
          cases op with
          | and =>
              rw [asked_of_enters rfl rfl] at htag
              exact hjoined rfl h.1.nests htag
          | or => simp [asked, NodeKind.isTerm, NodeKind.isNotOr] at htag
      | error =>
          obtain ⟨ts, -, rfl⟩ := h.1.parts
          rw [asked_of_enters rfl rfl, askedEach_map_token] at htag
          cases htag
      | _ => cases hoperand

theorem says_concat {cs : List Tree} (hoperands : ∀ c ∈ cs, c.kind?.all NodeKind.isOperand = true)
    (h : AllOf NodeKind.Arranged cs) :
    ∀ tag ∈ askedEach NodeKind.isNotOr cs, (Constraints.concat (cs.map classify)).Says tag := by
  intro tag htag
  cases cs with
  | nil => simp at htag
  | cons c cs =>
      rw [allOf_cons] at h
      rw [List.forall_mem_cons] at hoperands
      rw [List.map_cons, Constraints.concat_cons]
      rw [askedEach_cons, List.mem_append] at htag
      rcases htag with htag | htag
      · exact (saysAll_classify hoperands.1 h.1 tag htag).append_right _
      · exact (says_concat hoperands.2 h.2 tag htag).append_left _

end

/-- A region of operands says what it asks for. -/
theorem saysAll_classify_region {k : NodeKind} {cs : List Tree} (hk : k.isRegion = true)
    (hoperands : ∀ c ∈ cs, c.kind?.all NodeKind.isOperand = true)
    (h : (node k cs).All NodeKind.Arranged) : (node k cs).classify.SaysAll (node k cs) := by
  intro tag htag
  rw [all_node] at h
  have hjoins : k.joins? = some .and := by cases k <;> first | rfl | cases hk
  have hasked : (node k cs).asked NodeKind.isNotOr = askedEach NodeKind.isNotOr cs := by
    cases k <;> first | exact asked_of_enters rfl rfl _ | cases hk
  rw [hasked] at htag
  rw [classify_of_joins hjoins h.1.nests, concat_classify_filter hoperands]
  exact says_concat hoperands h.2 tag htag

end Tree

/-! ## The walk up -/

section Walk

variable {s : Step} {above : List Step} {t : Tree} {k : Constraints}

/-- A step up to a node that joins by `and` says what the other expressions in it ask for. -/
theorem saysAll_fill (hs : s.kind.joins? = some .and)
    (hothers : ∀ c ∈ s.others, c.kind?.all NodeKind.isOperand = true)
    (h : (s.fill t).All NodeKind.Arranged) (hk : k.SaysAll t) :
    (k.append (Constraints.concat (s.siblings.map Tree.classify))).SaysAll (s.fill t) := by
  intro tag htag
  have hasked : (s.fill t).asked NodeKind.isNotOr
      = Tree.askedEach NodeKind.isNotOr (s.before ++ t :: s.after) := by
    rw [Step.fill]
    cases hkind : s.kind with
    | binary op =>
        rw [hkind] at hs
        cases hs
        exact Tree.asked_of_enters rfl rfl _
    | _ => first | exact Tree.asked_of_enters rfl rfl _ | (rw [hkind] at hs; cases hs)
  rw [Step.fill, Tree.all_node, Tree.allOf_append, Tree.allOf_cons] at h
  have hall : AllOf NodeKind.Arranged s.others := by
    rw [Step.others, Tree.allOf_append]
    exact ⟨h.2.1, h.2.2.2⟩
  rw [Step.siblings_eq, Tree.concat_classify_filter hothers]
  have hbeside : tag ∈ Tree.askedEach NodeKind.isNotOr s.others →
      (k.append (Constraints.concat (s.others.map Tree.classify))).Says tag := fun hmem =>
    (Tree.says_concat hothers hall tag hmem).append_left _
  rw [hasked, Tree.askedEach_append, Tree.askedEach_cons, List.mem_append, List.mem_append] at htag
  rw [Step.others, Tree.askedEach_append, List.mem_append] at hbeside
  rcases htag with htag | htag | htag
  · exact hbeside (Or.inl htag)
  · exact (hk tag htag).append_right _
  · exact hbeside (Or.inr htag)

/-- **On the way up from an expression in the body of a query, what the body asks for is
collected.** -/
theorem Climb.saysAll (h : Climb above) (ht : t.isExpression = true)
    (hsingle : (Focus.wholeFrom t above).All NodeKind.SingleClause)
    (harranged : (Focus.wholeFrom t above).All NodeKind.Arranged) (hk : k.SaysAll t) {body : Focus}
    (hbody : body ∈ Focus.ancestorsFrom t above) (hkind : body.tree.isKind .queryBody = true) :
    (k.append (constraintsAbove t above)).SaysAll body.tree := by
  induction h generalizing t k with
  | @program s hs =>
      obtain rfl : body = ⟨s.fill t, s.start, []⟩ := by simpa [Focus.ancestorsFrom] using hbody
      simp [Tree.isKind, Step.fill, Tree.kind?, hs] at hkind
  | @domain s p hs ho hp =>
      have hcases : body = ⟨s.fill t, s.start, [p]⟩ ∨ body = ⟨p.fill (s.fill t), p.start, []⟩ := by
        simpa [Focus.ancestorsFrom] using hbody
      rcases hcases with rfl | rfl <;> simp [Tree.isKind, Step.fill, Tree.kind?, hs, hp] at hkind
  | @queryBody s q p hs ho hq hqo hbodies hp =>
      have hothers := ho.nests
      rw [hs] at hothers
      have hbody' : (Focus.wholeFrom (s.fill t) [q, p]).All NodeKind.Arranged := harranged
      have hfill := saysAll_fill (by rw [hs]; rfl) hothers (Focus.all_of_wholeFrom hbody') hk
      rw [constraintsAbove_region ht (by rw [hs]; rfl)]
      -- above the body are the query and the program
      rcases List.mem_cons.1 hbody with rfl | hbody
      · exact hfill
      · obtain ⟨x, hx, hxkind⟩ := Focus.exists_step_of_mem_ancestorsFrom hbody
        have hcases : x = q ∨ x = p := by simpa using hx
        rcases hcases with rfl | rfl <;> simp_all [Tree.isKind]
  | @clause s above hs ho h ih =>
      have hothers := ho.nests
      rw [hs] at hothers
      have hfill := saysAll_fill (by rw [hs]; rfl) hothers
        (Focus.all_of_wholeFrom (t := s.fill t) harranged) hk
      rw [siblings_eq_nil hs ht (Focus.all_of_wholeFrom (t := s.fill t) hsingle), List.map_nil]
        at hfill
      rw [constraintsAbove_clause ht hs]
      refine ih (t := s.fill t) (by rw [Step.fill, hs]; rfl) hsingle harranged
        (by rwa [← Constraints.append_empty k]) ?_
      rcases List.mem_cons.1 hbody with rfl | hbody
      · simp [Tree.isKind, Step.fill, Tree.kind?, hs] at hkind
      · exact hbody
  | @binary op s above hs ho hone h ih =>
      have hexpr : (s.fill t).isExpression = true := by
        rw [Step.fill, hs]
        rfl
      have hrest : body ∈ Focus.ancestorsFrom (s.fill t) above := by
        rcases List.mem_cons.1 hbody with rfl | hbody
        · simp [Tree.isKind, Step.fill, Tree.kind?, hs] at hkind
        · exact hbody
      cases op with
      | and =>
          have hothers := ho.nests
          rw [hs] at hothers
          have hfill := saysAll_fill (by rw [hs]; rfl) hothers
            (Focus.all_of_wholeFrom (t := s.fill t) harranged) hk
          rw [constraintsAbove_and ht hs, ← Constraints.append_assoc]
          exact ih hexpr hsingle harranged hfill hrest
      | or =>
          rw [constraintsAbove_or ht hs, ← Constraints.append_assoc]
          refine ih hexpr hsingle harranged (fun tag htag => ?_) hrest
          simp [Step.fill, hs, Tree.asked, NodeKind.isTerm, NodeKind.isNotOr] at htag

/-- What a subtree asks for outside the operands of `or` is asked for by all that is around it, up
to an `or`. -/
theorem asked_of_mem_ancestorsFrom {b : Focus} (hb : b ∈ Focus.ancestorsFrom t above)
    (hsteps : ∀ s ∈ above, s.kind.isTerm = false ∧ s.kind.isNotOr = true) :
    ∀ tag ∈ t.asked NodeKind.isNotOr, tag ∈ b.tree.asked NodeKind.isNotOr := by
  intro tag htag
  induction above generalizing t with
  | nil => cases hb
  | cons s above ih =>
      obtain ⟨hs, hsteps⟩ := List.forall_mem_cons.1 hsteps
      have hfill : tag ∈ (s.fill t).asked NodeKind.isNotOr := by
        rw [Step.fill, Tree.asked_of_enters hs.1 hs.2, Tree.askedEach_append, Tree.askedEach_cons]
        exact List.mem_append_right _ (List.mem_append_left _ htag)
      rcases List.mem_cons.1 hb with rfl | hb
      · exact hfill
      · exact ih hb hsteps hfill

end Walk

theorem List.eq_of_length_filter_eq_one {α : Type} {xs : List α} {p : α → Bool} {a b : α}
    (h : (xs.filter p).length = 1) (ha : a ∈ xs) (hpa : p a = true) (hb : b ∈ xs)
    (hpb : p b = true) : a = b := by
  obtain ⟨x, hx⟩ := List.length_eq_one_iff.1 h
  have hax := List.mem_filter.2 ⟨ha, hpa⟩
  have hbx := List.mem_filter.2 ⟨hb, hpb⟩
  rw [hx, List.mem_singleton] at hax hbx
  rw [hax, hbx]

/-! ## The parts of a query -/

namespace Focus

/-- A child that no other child has the kind of is the one that is found by its kind. -/
theorem child?_eq_of_mem_children {f c : Focus} {k : NodeKind}
    (hone : (f.tree.children.filter (Tree.isKind k)).length = 1) (hc : c ∈ f.children)
    (hkind : c.tree.isKind k = true) : f.child? k = some c := by
  have hplaces : (f.children.filter fun c => c.tree.isKind k).length = 1 := by
    rwa [← map_tree_children, List.filter_map, List.length_map] at hone
  cases hfound : f.child? k with
  | none => exact absurd hkind (List.find?_eq_none.1 hfound c hc)
  | some d =>
      have hd : d.tree.isKind k = true := by simpa using List.find?_some hfound
      rw [List.eq_of_length_filter_eq_one hplaces (List.mem_of_find?_eq_some hfound) hd hc hkind]

end Focus

namespace Tree

/-- A query in the tree of a text is that of a section. -/
theorem exists_section_of_query {t : Text} {q : Focus} (hq : q ∈ (parse t).nodes)
    (hkind : q.tree.isKind .query = true) : ∃ s : Section, q.tree = s.tree := by
  have hwhole : Focus.wholeFrom q.tree q.above = parse t :=
    whole_of_mem_focusesFrom (List.mem_filter.1 hq).1
  have horder : (Focus.wholeFrom q.tree q.above).OrderlyProgram := hwhole ▸ orderlyProgram_parse t
  have hsome : q.tree.kind? = some .query := by simpa [isKind] using hkind
  obtain ⟨p, rest, habove, hp⟩ := exists_parent horder hsome (by decide)
    fun _ => NodeKind.eq_program_of_admits_query
  rw [habove] at hwhole horder
  have htop : rest = [] :=
    eq_nil_of_program (t := p.fill q.tree) horder.all (by rw [← hp]; rfl)
  subst htop
  have hmem : q.tree ∈ (parse t).children := by
    rw [← hwhole]
    exact List.mem_append_right _ List.mem_cons_self
  rcases parse_cases t with ⟨hparse, -⟩ | ⟨run, sections, -, -, -, -, hparse⟩
  · rw [hparse] at hmem
    exact absurd hkind (not_isKind_regionTrees hmem rfl)
  · rw [hparse] at hmem
    rcases List.mem_append.1 hmem with hmem | hmem
    · rw [isKind_query_domainTrees hmem] at hkind
      cases hkind
    · obtain ⟨s, -, hs⟩ := List.mem_map.1 hmem
      exact ⟨s, hs.symm⟩

end Tree

/-- What stands before the body of a query. -/
def Section.head (s : Section) : List Tree :=
  .leaf .queryName s.name :: .token s.colon :: (s.body.takeWhile Token.isBlank).map .token

/-- The body of a query. -/
def Section.bodyTree (s : Section) : Tree :=
  .node .queryBody (regionTrees (s.body.dropWhile Token.isBlank))

theorem Section.children_tree (s : Section) : s.tree.children = s.head ++ s.bodyTree :: [] := rfl

theorem Section.not_isKind_head (s : Section) : ∀ c ∈ s.head, c.isKind .queryBody = false := by
  simp [head, Tree.isKind, Tree.leaf, Tree.kind?]

/-- A query has one name and one body. -/
theorem Section.length_filter_children (s : Section) {k : NodeKind}
    (hk : k = .queryName ∨ k = .queryBody) :
    (s.tree.children.filter (Tree.isKind k)).length = 1 := by
  have hblank : ((s.body.takeWhile Token.isBlank).map Tree.token).filter (Tree.isKind k) = [] := by
    simp [List.filter_map, Tree.isKind, Tree.kind?]
  rw [s.children_tree, head, List.cons_append, List.cons_append]
  rcases hk with rfl | rfl <;>
    simp [hblank, bodyTree, Tree.isKind, Tree.leaf, Tree.kind?]

/-- The parts of the query of a section, and where they stand. -/
theorem Section.places {s : Section} {q name body : Focus} (hq : q.tree = s.tree)
    (hname : q.child? .queryName = some name) (hbody : q.child? .queryBody = some body) :
    name.stop = q.start + s.name.width ∧ body.tree = s.bodyTree ∧
      body.start = q.start + Tree.widthOf s.head ∧ body.stop = q.stop := by
  have hchildren : q.tree.children = s.head ++ s.bodyTree :: [] := by
    rw [hq, s.children_tree]
  have hfirst : q.tree.children = [] ++ Tree.leaf .queryName s.name
      :: (s.head.tail ++ [s.bodyTree]) := by
    rw [hchildren]
    rfl
  obtain ⟨steps, hname'⟩ := Focus.exists_child? (k := .queryName) hfirst (by simp) rfl
  obtain ⟨steps', hbody'⟩ := Focus.exists_child? (k := .queryBody) hchildren s.not_isKind_head rfl
  obtain rfl := Option.some.inj (hname.symm.trans hname')
  obtain rfl := Option.some.inj (hbody.symm.trans hbody')
  have hwidth : q.tree.width = Tree.widthOf s.head + s.bodyTree.width := by
    have hnode : q.tree = .node .query (s.head ++ [s.bodyTree]) := by rw [hq]; rfl
    rw [hnode, Tree.width, Tree.widthOf_append]
    simp [Tree.widthOf]
  refine ⟨?_, rfl, rfl, ?_⟩
  · simp [Focus.stop, Tree.leaf, Tree.width, Tree.widthOf]
  · rw [Focus.stop, Focus.stop, hwidth, Nat.add_assoc]

/-! ## The node between terms -/

mutual

theorem Tree.all_ne_error {t : Tree} (hformed : t.All NodeKind.OuterOrFormed)
    (h : t.faultless = true) : t.All fun k _ => k ≠ .error := by
  cases t with
  | token t => simp
  | node k cs =>
      rw [Tree.all_node] at hformed ⊢
      refine ⟨?_, allOf_ne_error hformed.2 fun c hc => Tree.faultless_of_mem h hc⟩
      rintro rfl
      rcases hformed.1 with houter | ⟨t, p, hfirst, hproblem⟩
      · cases houter
      · have hopening := Tree.openingProblem?_eq_none h
        simp [openingProblem?, hfirst, hproblem] at hopening

theorem allOf_ne_error {cs : List Tree} (hformed : AllOf NodeKind.OuterOrFormed cs)
    (h : ∀ c ∈ cs, c.faultless = true) : AllOf (fun k _ => k ≠ .error) cs := by
  cases cs with
  | nil => simp
  | cons c cs =>
      rw [List.forall_mem_cons] at h
      rw [Tree.allOf_cons] at hformed ⊢
      exact ⟨Tree.all_ne_error hformed.1 h.1, allOf_ne_error hformed.2 h.2⟩

end

/-- In a text without errors no node is an error. -/
theorem all_ne_error_parse {t : Text} (h : syntaxErrors (parse t) = []) :
    (parse t).All fun k _ => k ≠ .error :=
  Tree.all_ne_error (outerOrFormed_parseTokens fun _ hx => isLexeme_of_mem_tokenize hx)
    ((syntaxErrors_eq_nil_iff _).1 h)

/-- In the body of a query stand operands, and parts of tags. -/
theorem isInner_of_mem_ancestorsFrom {t : Tree} {above : List Step} {body : Focus}
    (h : (Focus.wholeFrom t above).All NodeKind.Arranged)
    (hbody : body ∈ Focus.ancestorsFrom t above) (hkind : body.tree.isKind .queryBody = true) :
    t.kind?.all NodeKind.isInner = true := by
  induction above generalizing t with
  | nil => cases hbody
  | cons s above ih =>
      have hfill := Focus.all_of_wholeFrom (t := s.fill t) h
      rw [Step.fill, Tree.all_node] at hfill
      have hinner : ∀ j, s.kind.admits j = true → j.isInner = true := by
        rcases List.mem_cons.1 hbody with rfl | hbody
        · have hs : s.kind = .queryBody := by simpa [Tree.isKind, Step.fill, Tree.kind?] using hkind
          intro j hj
          rw [hs] at hj
          exact NodeKind.isInner_of_admits (k := .clause) rfl hj
        · have hs : s.kind.isInner = true := ih h hbody
          exact fun j hj => NodeKind.isInner_of_admits hs hj
      exact hfill.1.nests.all_kind hinner t (List.mem_append_right _ List.mem_cons_self)

/-- A part of a tag is a term by itself, or stands in the tag. -/
theorem Focus.exists_term_of_tagPart {p : Focus} {k : NodeKind} (h : p.whole.OrderlyProgram)
    (hk : p.tree.kind? = some k) (hpart : k.isTagPart = true) :
    p.isTerm = true ∨ ∃ a ∈ p.ancestors, a.isTerm = true := by
  rcases p with ⟨t, start, above⟩
  have hne : k ≠ .program := by
    rintro rfl
    cases hpart
  cases above with
  | nil =>
      have hprogram : t.kind? = some .program := h.kind
      rw [hk, Option.some.injEq] at hprogram
      exact absurd hprogram hne
  | cons s above =>
      by_cases htag : s.kind = .tag
      · refine Or.inr ⟨⟨s.fill t, s.start, above⟩, List.mem_cons_self, ?_⟩
        simp [isTerm, Step.fill, Tree.kind?, htag]
      · -- outside a tag only words and literals can stand, and these are terms there
        have hadmits : s.kind.admits k = true := admits_of_orderly h.all hk
        refine Or.inl ?_
        rw [← isTermAt_address, Tree.isTermAt]
        cases k <;> cases hpart <;> simp_all [address, Address.ofSteps] <;>
          (cases hs : s.kind <;> simp_all [NodeKind.admits, NodeKind.isOperand,
            NodeKind.isExpression])

/-- In the body of a query without errors, the node around a token that is in no term is an
expression. -/
theorem isExpression_between {t : Text} (herrors : syntaxErrors (parse t) = []) {g p body : Focus}
    (hg : g ∈ (parse t).leaves) (hp : g.up? = some p) (hbody : body ∈ p.ancestors)
    (hkind : body.tree.isKind .queryBody = true)
    (hfree : ∀ a ∈ g.ancestors, a.isTerm = false) :
    p.tree.isExpression = true ∧ Climb p.above := by
  have hup : p ∈ g.ancestors ∧ ∀ a ∈ p.ancestors, a ∈ g.ancestors := by
    rw [Focus.ancestors_of_up? hp]
    exact ⟨List.mem_cons_self, fun a ha => List.mem_cons_of_mem _ ha⟩
  have hwhole : p.whole = parse t := by
    rw [Focus.whole_of_mem_ancestorsFrom hup.1]
    exact Tree.whole_of_mem_leaves hg
  have horder : p.whole.OrderlyProgram := by
    rw [hwhole]
    exact orderlyProgram_parse t
  have harranged : p.whole.All NodeKind.Arranged := by
    rw [hwhole]
    exact all_arranged_parse t
  have hclean : p.whole.All fun k _ => k ≠ .error := by
    rw [hwhole]
    exact all_ne_error_parse herrors
  have hinner := isInner_of_mem_ancestorsFrom harranged hbody hkind
  obtain ⟨k, cs, htree⟩ := Focus.exists_node_of_up? hp
  have hne : k ≠ .error := by
    have hself := Focus.all_of_wholeFrom hclean
    rw [htree, Tree.all_node] at hself
    exact hself.1
  have hpart : k.isTagPart = false := by
    by_contra hpart
    rcases Focus.exists_term_of_tagPart horder (by rw [htree]; rfl) (by simpa using hpart)
      with hterm | ⟨a, ha, hterm⟩
    · rw [hfree p hup.1] at hterm
      cases hterm
    · rw [hfree a (hup.2 a ha)] at hterm
      cases hterm
  rw [htree] at hinner
  have hoperand : k.isOperand = true := by
    have hboth : (k.isOperand || k.isTagPart) = true := hinner
    rwa [hpart, Bool.or_false] at hboth
  refine ⟨?_, climb_of_orderly horder (by rw [htree]; rfl) hoperand ?_⟩
  · rw [htree, Tree.isExpression]
    rw [NodeKind.isOperand, Bool.or_eq_true] at hoperand
    rcases hoperand with hexpr | herror
    · exact hexpr
    · exact absurd (by simpa using herror) hne
  · exact head?_ne_tag horder.all (by rw [htree]; rfl) hpart

/-! ## What is known between terms -/

/-- Whether an `or` is around a place. -/
def Focus.isUnderOr (f : Focus) : Bool :=
  f.ancestors.any fun a => a.tree.isKind (.binary .or)

/-- Whether the domain is around a place. -/
def Focus.isInDomain (f : Focus) : Bool :=
  f.ancestors.any fun a => a.tree.isKind .domain

/-- Whether constraints say what a term asks for, if it asks for a tag. -/
def Constraints.SaysTerm (k : Constraints) (f : Focus) : Prop :=
  ∀ tag ∈ QueryTag.ofTerm? f.tree, k.Says tag

section Terms

variable {t : Text} {f b : Focus} {k : Constraints}

/-- The tag of a term under no `or` is asked for by what is around it. -/
theorem asked_of_term (hf : f ∈ (parse t).terms) (hor : f.isUnderOr = false)
    (hb : b ∈ f.ancestors) {tag : QueryTag} (htag : QueryTag.ofTerm? f.tree = some tag) :
    tag ∈ b.tree.asked NodeKind.isNotOr := by
  have hwhole : f.whole = parse t :=
    Tree.whole_of_mem_focusesFrom (Tree.mem_focuses_of_mem_terms hf)
  have hterm := Tree.isTerm_of_mem_terms hf
  have hclimb : Climb f.above := Focus.climb (by rw [hwhole]; exact orderlyProgram_parse t) hterm
  obtain ⟨k, cs, htree, hk⟩ := f.isTerm_kind hterm
  refine asked_of_mem_ancestorsFrom hb (fun s hs => ⟨hclimb.not_isTerm s hs, ?_⟩) tag ?_
  · have hany : (f.above.any fun s => s.kind = .binary .or) = false := by
      rw [Focus.isUnderOr, Focus.ancestors] at hor
      rw [← Focus.any_ancestorsFrom (fun k => k = .binary .or) f.tree, ← hor]
      congr 1
      funext a
      cases ha : a.tree.kind? <;> simp [Tree.isKind, ha]
    have hnot := List.any_eq_false.1 hany s hs
    simpa [NodeKind.isNotOr] using hnot
  · rw [htree] at htag ⊢
    rw [Tree.asked_of_isTerm hk, htag]
    exact List.mem_singleton.2 rfl

/-- What says all that is around a term says what the term asks for. -/
theorem Constraints.SaysAll.saysTerm (h : k.SaysAll b.tree) (hf : f ∈ (parse t).terms)
    (hor : f.isUnderOr = false) (hb : b ∈ f.ancestors) : k.SaysTerm f :=
  fun tag htag => h tag (asked_of_term hf hor hb htag)

/-- The domain says what it asks for. -/
theorem saysAll_domain {d : Focus} (hd : d ∈ (parse t).focuses)
    (hkind : d.tree.isKind .domain = true) :
    (((parse t).domain?.map Tree.classify).getD .empty).SaysAll d.tree := by
  have hwhole : Focus.wholeFrom d.tree d.above = parse t := Tree.whole_of_mem_focusesFrom hd
  have harranged : d.tree.All NodeKind.Arranged := Tree.all_of_mem_focuses (all_arranged_parse t) hd
  have hsome : d.tree.kind? = some .domain := by simpa [Tree.isKind] using hkind
  obtain ⟨p, habove, -, -, hqueries⟩ :=
    exists_above_domain (hwhole ▸ orderlyProgram_parse t) hsome
  have hdomain : (parse t).domain? = some d.tree := by
    have hbefore : p.before.find? (Tree.isKind .domain) = none := by
      rw [List.find?_eq_none]
      intro c hc hckind
      have hquery := hqueries c (List.mem_append_left _ hc)
      have hcsome : c.kind? = some .domain := by simpa [Tree.isKind] using hckind
      simp [hcsome] at hquery
    rw [← hwhole, habove]
    show (p.fill d.tree).domain? = _
    rw [Tree.domain?, Tree.child?, Step.fill, Tree.children, List.find?_append, hbefore,
      List.find?_cons_of_pos hkind]
    rfl
  rw [hdomain]
  obtain ⟨cs, htree⟩ := Tree.exists_node_of_isKind hkind
  rw [htree] at harranged ⊢
  exact Tree.saysAll_classify_region rfl ((Tree.all_node _ _).1 harranged).1.nests harranged

theorem Constraints.SaysTerm.append_left (h : k.SaysTerm f) (l : Constraints) :
    (l.append k).SaysTerm f :=
  fun tag htag => (h tag htag).append_left l

theorem Constraints.SaysTerm.append_right (h : k.SaysTerm f) (l : Constraints) :
    (k.append l).SaysTerm f :=
  fun tag htag => (h tag htag).append_right l

theorem saysTerm_domain (hf : f ∈ (parse t).terms) (hor : f.isUnderOr = false)
    (hdomain : f.isInDomain = true) :
    (((parse t).domain?.map Tree.classify).getD .empty).SaysTerm f := by
  obtain ⟨d, hd, hkind⟩ := List.any_eq_true.1 hdomain
  have hplace : d ∈ (parse t).focuses :=
    Tree.mem_focuses_of_mem_ancestors (Tree.mem_focuses_of_mem_terms hf) hd
  exact (saysAll_domain hplace hkind).saysTerm hf hor hd

end Terms

namespace Tree

/-- In a query, what is known at a node that is no term is what it says itself, what is around it,
and the domain. -/
theorem constraints_of_not_isTerm {t : Tree} {offset : Nat} {c q : Focus}
    (hc : t.currentAt? offset = some c) (hnot : c.isTerm = false) (hq : q ∈ c :: c.ancestors)
    (hkind : q.tree.isKind .query = true) :
    (t.constraintsAt offset).constraints
      = (c.tree.classify.append (constraintsAbove c.tree c.above)).append
          ((t.domain?.map classify).getD .empty) := by
  have hquery : ((c :: c.ancestors).any fun f => f.tree.isKind .query) = true :=
    List.any_eq_true.2 ⟨q, hq, hkind⟩
  simp only [constraintsAt, hc, hnot, hquery, if_true, Bool.false_eq_true, if_false]

/-- Between the colon of a header and the body stand tokens of the query itself. -/
theorem exists_leaf_in_gap {t : Text} {q name body : Focus} {offset : Nat}
    (hq : q ∈ (parse t).focuses) {s : Section} (hs : q.tree = s.tree)
    (hname : q.child? .queryName = some name) (hbody : q.child? .queryBody = some body)
    (hbehind : name.stop ≤ offset) (hbefore : offset < body.start) :
    ∃ g ∈ (parse t).leaves, (g.start ≤ offset ∧ offset < g.stop) ∧ g.up? = some q := by
  obtain ⟨hnameStop, -, hbodyStart, hbodyStop⟩ := Section.places hs hname hbody
  obtain ⟨c, hc, hcbyte⟩ : ∃ c ∈ q.children, c.start ≤ offset ∧ offset < c.stop := by
    rcases q with ⟨tree, start, above⟩
    obtain rfl : tree = s.tree := hs
    have hstart : name.stop = start + s.name.width := hnameStop
    refine exists_child_holds (by omega) ?_
    have hwidth : body.start ≤ body.stop := Nat.le_add_right _ _
    have hstop : body.stop = start + s.tree.width := hbodyStop
    show offset < start + s.tree.width
    omega
  obtain ⟨hplace, hup⟩ := mem_focuses_of_mem_children hq hc
  have hchild : c.tree ∈ s.head ++ s.bodyTree :: [] := by
    rw [← s.children_tree, ← hs, ← Focus.map_tree_children]
    exact List.mem_map_of_mem hc
  refine ⟨c, List.mem_filter.2 ⟨hplace, ?_⟩, hcbyte, hup⟩
  -- the name and the body do not have the offset inside, so the child is a token
  by_contra hnode
  have hcases : c.tree.isKind .queryName = true ∨ c.tree.isKind .queryBody = true := by
    simp only [Section.head, List.mem_append, List.mem_cons, List.mem_map, List.not_mem_nil,
      or_false] at hchild
    rcases hchild with (h | h | ⟨x, -, h⟩) | h
    · exact Or.inl (by rw [h]; rfl)
    · rw [h] at hnode
      exact absurd rfl hnode
    · rw [← h] at hnode
      exact absurd rfl hnode
    · exact Or.inr (by rw [h]; rfl)
  have hfound : ∀ k, k = .queryName ∨ k = .queryBody → c.tree.isKind k = true →
      q.child? k = some c := fun k hk hckind =>
    Focus.child?_eq_of_mem_children (by rw [hs]; exact s.length_filter_children hk) hc hckind
  rcases hcases with hkind | hkind
  · obtain rfl := Option.some.inj (hname.symm.trans (hfound _ (Or.inl rfl) hkind))
    omega
  · obtain rfl := Option.some.inj (hbody.symm.trans (hfound _ (Or.inr rfl) hkind))
    omega

/-- In the body of a query, all is known that the body asks for outside the operands of `or`. -/
theorem saysAll_in_body {t : Text} (herrors : syntaxErrors (parse t) = []) {g body : Focus}
    {offset : Nat} (hg : g ∈ (parse t).leaves) (hbyte : g.start ≤ offset ∧ offset < g.stop)
    (hbody : body ∈ g.ancestors) (hkind : body.tree.isKind .queryBody = true)
    (hfree : ∀ f ∈ (parse t).terms, ¬ (f.start ≤ offset ∧ offset ≤ f.stop)) :
    ∃ c, (parse t).currentAt? offset = some c ∧ c.isTerm = false ∧ body ∈ c :: c.ancestors ∧
      (c.tree.classify.append (constraintsAbove c.tree c.above)).SaysAll body.tree := by
  have hnone : ∀ a ∈ g.ancestors, a.isTerm = false := by
    intro a ha
    by_contra hterm
    obtain ⟨-, hstart, hstop⟩ := holds_of_mem_ancestors hg ha
    exact hfree a (mem_terms_of_mem_ancestors hg ha (by simpa using hterm)) (by omega)
  have hplace : body ∈ (parse t).focuses := (holds_of_mem_ancestors hg hbody).1
  have harranged : body.tree.All NodeKind.Arranged :=
    all_of_mem_focuses (all_arranged_parse t) hplace
  obtain ⟨c, hc⟩ := Focus.exists_up?_of_mem_ancestors hbody
  have hancestors := Focus.ancestors_of_up? hc
  have hcurrent := currentAt?_of_free hg hbyte hc hfree
  have hmem : body ∈ c :: c.ancestors := hancestors ▸ hbody
  have hself : c ∈ g.ancestors := hancestors ▸ List.mem_cons_self
  refine ⟨c, hcurrent, hnone c hself, hmem, ?_⟩
  rcases List.mem_cons.1 hmem with rfl | hmem
  · -- the token stands in the body itself
    obtain ⟨cs, htree⟩ := exists_node_of_isKind hkind
    rw [htree] at harranged ⊢
    intro tag htag
    exact (saysAll_classify_region rfl ((all_node _ _).1 harranged).1.nests harranged tag
      htag).append_right _
  · obtain ⟨hexpr, hclimb⟩ := isExpression_between herrors hg hc hmem hkind hnone
    have hwhole : c.whole = parse t := by
      rw [Focus.whole_of_mem_ancestorsFrom hself]
      exact whole_of_mem_leaves hg
    have hsingle : (Focus.wholeFrom c.tree c.above).All NodeKind.SingleClause := by
      rw [← Focus.whole, hwhole]
      exact all_singleClause_parse herrors
    have hall : (Focus.wholeFrom c.tree c.above).All NodeKind.Arranged := by
      rw [← Focus.whole, hwhole]
      exact all_arranged_parse t
    have hoperand : c.tree.kind?.all NodeKind.isOperand = true := by
      cases hk : c.tree.kind? with
      | none => rfl
      | some k => simp_all [isExpression, NodeKind.isOperand]
    exact hclimb.saysAll hexpr hsingle hall
      (saysAll_classify hoperand (Focus.all_of_wholeFrom hall)) hmem hkind

/-- Nothing is seen on the way up from a query. -/
theorem constraintsAbove_query {t : Text} {q : Focus} (hq : q ∈ (parse t).focuses)
    (hkind : q.tree.isKind .query = true) : constraintsAbove q.tree q.above = .empty := by
  have hwhole : Focus.wholeFrom q.tree q.above = parse t := whole_of_mem_focusesFrom hq
  have horder : (Focus.wholeFrom q.tree q.above).OrderlyProgram := hwhole ▸ orderlyProgram_parse t
  have hsome : q.tree.kind? = some .query := by simpa [isKind] using hkind
  obtain ⟨p, rest, habove, hp⟩ := exists_parent horder hsome (by decide)
    fun _ => NodeKind.eq_program_of_admits_query
  rw [habove] at horder ⊢
  have hparts := isPart_of_mem_others (orderly_fill horder.all).1 hp hsome rfl
  have hsiblings : p.siblings = [] := by
    rw [Step.siblings_eq, List.filter_eq_nil_iff]
    intro c hc hexpr
    have hpart := hparts c hc
    rw [IsOuterPart] at hpart
    cases hk : c.kind? with
    | none => simp [isExpression, hk] at hexpr
    | some k => cases k <;> simp_all [isExpression, NodeKind.isExpression]
  rw [constraintsAbove, if_neg (by simp [hsome, NodeKind.isRegion]), hp, hsiblings,
    constraintsAbove_fill_of_isRegion (by rw [hp]; rfl)]
  rfl

/-- **Between terms the whole query is known, but for the gap before its body.** In a text without
errors, let an offset be behind the colon of a query and before its end, and touch no term. Then
the tags of the domain are known, but for those in operands of `or`. In the body the same holds for
the tags of the body; between the colon and the body, nothing but the domain is known. -/
theorem constraintsAt_between_terms {t : Text} (herrors : syntaxErrors (parse t) = [])
    {q name body : Focus} {offset : Nat} (hq : q ∈ (parse t).nodes)
    (hkind : q.tree.isKind .query = true) (hname : q.child? .queryName = some name)
    (hbody : q.child? .queryBody = some body) (hbehind : name.stop < offset)
    (hbefore : offset < q.stop)
    (hfree : ∀ f ∈ (parse t).terms, ¬ (f.start ≤ offset ∧ offset ≤ f.stop)) :
    let known := ((parse t).constraintsAt offset).constraints
    (∀ f ∈ (parse t).terms, f.isUnderOr = false → f.isInDomain = true → known.SaysTerm f) ∧
      (body.start ≤ offset → ∀ f ∈ (parse t).terms, f.isUnderOr = false → body ∈ f.ancestors →
        known.SaysTerm f) ∧
      (offset < body.start → ((parse t).constraintsAt offset).current = some q ∧
        known = ((parse t).domain?.map classify).getD .empty) := by
  intro known
  have hplace : q ∈ (parse t).focuses := (List.mem_filter.1 hq).1
  obtain ⟨s, hs⟩ := exists_section_of_query hq hkind
  obtain ⟨-, hbodyTree, -, hbodyStop⟩ := Section.places hs hname hbody
  by_cases hgap : offset < body.start
  · obtain ⟨g, hg, hbyte, hup⟩ :=
      exists_leaf_in_gap hplace hs hname hbody (Nat.le_of_lt hbehind) hgap
    have hcurrent := currentAt?_of_free hg hbyte hup hfree
    have hnot : q.isTerm = false := by rw [Focus.isTerm, hs]; rfl
    have hasked : q.tree.classify = .empty := by
      simp [hs, Section.tree, classify]
    have hknown : known = ((parse t).domain?.map classify).getD .empty := by
      show ((parse t).constraintsAt offset).constraints = _
      rw [constraints_of_not_isTerm hcurrent hnot List.mem_cons_self hkind, hasked,
        constraintsAbove_query hplace hkind]
      rfl
    refine ⟨fun f hf hor hdomain => ?_, fun hin => absurd hgap (Nat.not_lt.2 hin), fun _ => ?_⟩
    · rw [hknown]
      exact saysTerm_domain hf hor hdomain
    · exact ⟨(current_constraintsAt _ _).trans hcurrent, hknown⟩
  · have hin : body.start ≤ offset ∧ offset < body.stop := by omega
    obtain ⟨hbodyPlace, hbodyUp⟩ :=
      mem_focuses_of_mem_children hplace (List.mem_of_find?_eq_some hbody)
    have hbodyKind : body.tree.isKind .queryBody = true := by rw [hbodyTree]; rfl
    obtain ⟨g, hg, hbyte⟩ := exists_leaf_at hbodyPlace hin
    have hmem : body ∈ g.ancestors := by
      rcases List.mem_cons.1 (mem_ancestors_of_holds hg hbodyPlace hbyte hin) with rfl | hmem
      · have hleaf := (List.mem_filter.1 hg).2
        rw [hbodyTree] at hleaf
        cases hleaf
      · exact hmem
    obtain ⟨c, hcurrent, hnot, hbodyMem, hasked⟩ :=
      saysAll_in_body herrors hg hbyte hmem hbodyKind hfree
    have hquery : q ∈ body.ancestors := Focus.ancestors_of_up? hbodyUp ▸ List.mem_cons_self
    have hqueryMem : q ∈ c :: c.ancestors := by
      rcases List.mem_cons.1 hbodyMem with rfl | hbodyMem
      · exact List.mem_cons_of_mem _ hquery
      · exact List.mem_cons_of_mem _ (Focus.mem_ancestors_trans hbodyMem hquery)
    have hknown : known = (c.tree.classify.append (constraintsAbove c.tree c.above)).append
        (((parse t).domain?.map classify).getD .empty) :=
      constraints_of_not_isTerm hcurrent hnot hqueryMem hkind
    refine ⟨fun f hf hor hdomain => ?_, fun _ f hf hor hmem => ?_, fun hlt => absurd hlt hgap⟩
    · rw [hknown]
      exact (saysTerm_domain hf hor hdomain).append_left _
    · rw [hknown]
      exact (hasked.saysTerm hf hor hmem).append_right _

/-- At a keyword between a clause and a term with a sign, below a domain. -/
theorem constraintsAt_between_terms_at_keyword :
    ∃ f g : Focus, QueryTag.ofTerm? f.tree = some ⟨none, ['c'], [':'], ['u']⟩ ∧
      QueryTag.ofTerm? g.tree = some ⟨some ['-'], ['r'], [':'], ['m']⟩ ∧
      let known := ((parse "c:u\nq: (t:elf or o:a) and -r:m".toList).constraintsAt 23).constraints
      known.SaysTerm f ∧ known.SaysTerm g := by
  have herrors : syntaxErrors (parse "c:u\nq: (t:elf or o:a) and -r:m".toList) = [] := by
    decide +kernel
  have hparts : ∃ q ∈ (parse "c:u\nq: (t:elf or o:a) and -r:m".toList).nodes,
      q.tree.isKind .query = true ∧ 23 < q.stop ∧
        ((q.child? .queryName).any fun name => name.stop < 23) = true ∧
        ((q.child? .queryBody).any fun body => body.start ≤ 23) = true := by decide +kernel
  have hfree : ∀ f ∈ (parse "c:u\nq: (t:elf or o:a) and -r:m".toList).terms,
      ¬ (f.start ≤ 23 ∧ 23 ≤ f.stop) := by decide +kernel
  have hdomain : ∃ f ∈ (parse "c:u\nq: (t:elf or o:a) and -r:m".toList).terms,
      f.isUnderOr = false ∧ f.isInDomain = true ∧
        QueryTag.ofTerm? f.tree = some ⟨none, ['c'], [':'], ['u']⟩ := by decide +kernel
  have hterm : ∃ g ∈ (parse "c:u\nq: (t:elf or o:a) and -r:m".toList).terms,
      g.isUnderOr = false ∧ (g.ancestors.any fun b => b.tree.isKind .queryBody) = true ∧
        QueryTag.ofTerm? g.tree = some ⟨some ['-'], ['r'], [':'], ['m']⟩ := by decide +kernel
  have hone : ((parse "c:u\nq: (t:elf or o:a) and -r:m".toList).focuses.filter
      fun b => b.tree.isKind .queryBody).length = 1 := by decide +kernel
  obtain ⟨q, hq, hkind, hbefore, hnamed, hbodied⟩ := hparts
  obtain ⟨name, hname, hbehind⟩ := (Option.any_eq_true _ _).1 hnamed
  obtain ⟨body, hbody, hin⟩ := (Option.any_eq_true _ _).1 hbodied
  obtain ⟨f, hf, hfor, hfdomain, hftag⟩ := hdomain
  obtain ⟨g, hg, hgor, hgbody, hgtag⟩ := hterm
  obtain ⟨hshared, hown, -⟩ := constraintsAt_between_terms herrors hq hkind hname hbody
    (by simpa using hbehind) hbefore hfree
  refine ⟨f, g, hftag, hgtag, hshared f hf hfor hfdomain, ?_⟩
  -- there is one body, so the one around the term is that of the query
  obtain ⟨b, hb, hbkind⟩ := List.any_eq_true.1 hgbody
  have hbplace := mem_focuses_of_mem_ancestors (mem_focuses_of_mem_terms hg) hb
  have hbodyPlace := (mem_focuses_of_mem_children (List.mem_filter.1 hq).1
    (List.mem_of_find?_eq_some hbody)).1
  have hbodyKind : body.tree.isKind .queryBody = true := by simpa using List.find?_some hbody
  have hsame : body = b := List.eq_of_length_filter_eq_one hone hbodyPlace hbodyKind hbplace hbkind
  exact hown (by simpa using hin) g hg hgor (hsame ▸ hb)

/-- **The body of a query is not known behind the colon of its header.** -/
theorem body_unknown_behind_colon :
    syntaxErrors (parse "q: t:elf".toList) = [] ∧
      (∃ q ∈ (parse "q: t:elf".toList).nodes, q.tree.isKind .query = true ∧ 2 < q.stop ∧
        ((q.child? .queryName).any fun name => name.stop < 2) = true) ∧
      (∀ f ∈ (parse "q: t:elf".toList).terms, ¬ (f.start ≤ 2 ∧ 2 ≤ f.stop)) ∧
      (∃ f ∈ (parse "q: t:elf".toList).terms, f.isUnderOr = false ∧
        (f.ancestors.any fun b => b.tree.isKind .queryBody) = true ∧
        QueryTag.ofTerm? f.tree = some ⟨none, ['t'], [':'], ['e', 'l', 'f']⟩) ∧
      ((parse "q: t:elf".toList).constraintsAt 2).constraints = .empty := by
  decide +kernel

end Tree

end CardQuery
