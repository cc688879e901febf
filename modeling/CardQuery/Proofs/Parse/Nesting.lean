import CardQuery.Proofs.Parse.Formed
import CardQuery.Proofs.Tree.Nesting

/-!
# Every tree that is read is orderly

Whatever is wrong with a text, every node of its tree stands where its kind is admitted. `misplaced`
lists the nodes of which that is not so. Joining makes binary nodes, clauses and errors of single
tokens, and places none of them wrongly, so a region has the misplaced nodes of its items.

Main statement: the tree of a text is orderly (`orderlyProgram_parse`).
-/

set_option autoImplicit false

namespace CardQuery

open CardQuery.Tree (AllOf nodeCount)

namespace Tree

mutual

/-- The kinds of the nodes that stand where they are not admitted, in a child of a node of kind
`parent`. -/
def misplaced (parent : NodeKind) : Tree → List NodeKind
  | .token _ => []
  | .node k cs => (if parent.admits k then [] else [k]) ++ misplacedEach k cs

/-- The kinds of the misplaced nodes in several children of a node of kind `parent`. -/
def misplacedEach (parent : NodeKind) : List Tree → List NodeKind
  | [] => []
  | c :: cs => misplaced parent c ++ misplacedEach parent cs

end

variable {parent : NodeKind}

@[simp] theorem misplaced_token (t : Token) : (token t).misplaced parent = [] := by
  simp [misplaced]

@[simp] theorem misplaced_node (k : NodeKind) (cs : List Tree) :
    (node k cs).misplaced parent
      = (if parent.admits k then [] else [k]) ++ misplacedEach k cs := by
  simp [misplaced]

@[simp] theorem misplacedEach_nil : misplacedEach parent [] = [] := by
  simp [misplacedEach]

@[simp] theorem misplacedEach_cons (c : Tree) (cs : List Tree) :
    misplacedEach parent (c :: cs) = c.misplaced parent ++ misplacedEach parent cs := by
  simp [misplacedEach]

@[simp] theorem misplacedEach_append (xs ys : List Tree) :
    misplacedEach parent (xs ++ ys) = misplacedEach parent xs ++ misplacedEach parent ys := by
  induction xs with
  | nil => simp
  | cons x xs ih => simp [ih]

@[simp] theorem misplacedEach_map_token (ts : List Token) :
    misplacedEach parent (ts.map token) = [] := by
  induction ts with
  | nil => simp
  | cons t ts ih => simp [ih]

/-- What is misplaced among children depends only on what their parent admits. -/
theorem misplacedEach_congr {p q : NodeKind} (h : ∀ k, p.admits k = q.admits k)
    (cs : List Tree) : misplacedEach p cs = misplacedEach q cs := by
  induction cs with
  | nil => simp
  | cons c cs ih => cases c <;> simp [h, ih]

theorem flattens_misplacedEach : Flattens (misplacedEach .clause) where
  append := misplacedEach_append
  binary op cs := by
    have hcs := misplacedEach_congr (p := .binary op) (q := .clause) (fun _ => rfl) cs
    simp [hcs, NodeKind.admits, NodeKind.isOperand, NodeKind.isExpression]
  clause cs := by simp [NodeKind.admits, NodeKind.isOperand, NodeKind.isExpression]
  error t := by simp [leaf, NodeKind.admits, NodeKind.isOperand]

mutual

theorem all_nests_of_misplaced {parent : NodeKind} {t : Tree} (h : t.misplaced parent = []) :
    t.kind?.all parent.admits = true ∧ t.All NodeKind.Nests := by
  cases t with
  | token t => simp [kind?]
  | node k cs =>
      rw [misplaced_node, List.append_eq_nil_iff] at h
      obtain ⟨hadmits, hcs⟩ := h
      obtain ⟨hkinds, hall⟩ := allOf_nests_of_misplacedEach hcs
      have hk : parent.admits k = true := by
        by_contra hk
        simp [hk] at hadmits
      exact ⟨by simpa [kind?] using hk, by rw [all_node]; exact ⟨hkinds, hall⟩⟩

theorem allOf_nests_of_misplacedEach {parent : NodeKind} {cs : List Tree}
    (h : misplacedEach parent cs = []) : parent.Nests cs ∧ AllOf NodeKind.Nests cs := by
  cases cs with
  | nil => simp [NodeKind.Nests]
  | cons c cs =>
      rw [misplacedEach_cons, List.append_eq_nil_iff] at h
      obtain ⟨hc, hall⟩ := all_nests_of_misplaced h.1
      obtain ⟨hcs, hrest⟩ := allOf_nests_of_misplacedEach h.2
      exact ⟨List.forall_mem_cons.2 ⟨hc, hcs⟩, by rw [allOf_cons]; exact ⟨hall, hrest⟩⟩

end

end Tree

/-! ## Items -/

/-- Whether nothing is misplaced in an item. -/
def Item.Nests (i : Item) : Prop :=
  Tree.misplacedEach .clause i.trees = []

namespace Draft

/-- Whether nothing is misplaced in the item that is complete, if one is. -/
def Nests : Draft → Prop
  | .complete i => i.Nests
  | _ => True

/-- A node of tokens is misplaced just when its own kind is not admitted. -/
theorem misplaced_flat (parent k : NodeKind) (ts : List Token) :
    (Tree.flat k ts).misplaced parent = if parent.admits k then [] else [k] := by
  simp [Tree.flat]

theorem misplaced_leaf (parent k : NodeKind) (t : Token) :
    (Tree.leaf k t).misplaced parent = if parent.admits k then [] else [k] :=
  misplaced_flat parent k [t]

theorem nests_tagOf (sign : Option Token) {parts : List Tree}
    (h : Tree.misplacedEach .tag parts = []) : (tagOf sign parts).Nests := by
  have hsign : Tree.misplacedEach .tag (sign.toList.map (Tree.leaf .sign)) = [] := by
    cases sign <;> simp [misplaced_leaf, NodeKind.admits, NodeKind.isTagPart]
  simp [Item.Nests, tagOf, Item.trees, hsign, h, NodeKind.admits, NodeKind.isOperand,
    NodeKind.isExpression]

theorem nests_term {tree : Tree} (h : tree.misplaced .clause = []) : (Item.term tree).Nests := by
  simp [Item.Nests, Item.trees, h]

theorem nests_start (t : Token) : (start t).Nests := by
  unfold start
  split <;> simp [Nests, Item.Nests, Item.trees, misplaced_leaf, NodeKind.admits,
    NodeKind.isOperand, NodeKind.isExpression]

theorem nests_extend {d d' : Draft} {t : Token} (h : d.extend t = some d') : d'.Nests := by
  cases d <;> simp only [extend] at h
  case complete => cases h
  all_goals
    split at h <;> cases h <;> first
      | trivial
      | exact nests_tagOf _ (by simp [misplaced_leaf, NodeKind.admits, NodeKind.isTagPart])

theorem nests_finish {d : Draft} (h : d.Nests) (next : Option TokenKind) :
    (d.finish next).Nests := by
  cases d with
  | complete i => exact h
  | minus m =>
      simp only [finish]
      split
      · exact nests_term (misplaced_leaf ..)
      · exact nests_tagOf _ (by simp)
  | word sign w =>
      cases sign with
      | none => exact nests_term (misplaced_leaf ..)
      | some m =>
          exact nests_tagOf _ (by simp [misplaced_leaf, NodeKind.admits, NodeKind.isTagPart])
  | tag sign a op =>
      exact nests_tagOf _ (by simp [misplaced_leaf, NodeKind.admits, NodeKind.isTagPart])
  | value sign a op words =>
      exact nests_tagOf _
        (by simp [misplaced_leaf, misplaced_flat, NodeKind.admits, NodeKind.isTagPart])
  | stray ts => exact nests_term (misplaced_flat ..)

theorem nests_run {d : Draft} (h : d.Nests) (ts : List Token) : ∀ i ∈ d.run ts, i.Nests :=
  forall_mem_run (P := fun _ => True) (fun t _ => nests_start t)
    (fun _ _ hext => nests_extend hext) nests_finish h fun _ _ => trivial

end Draft

theorem nests_items (ts : List Token) : ∀ i ∈ items ts, i.Nests := by
  cases ts with
  | nil => simp [items]
  | cons t ts => exact Draft.nests_run (Draft.nests_start t) ts

/-! ## Regions and texts -/

/-- Nothing is misplaced in a region. -/
theorem nests_regionTrees (ts : List Token) :
    NodeKind.Nests .clause (regionTrees ts) ∧ AllOf NodeKind.Nests (regionTrees ts) := by
  refine Tree.allOf_nests_of_misplacedEach ?_
  rw [Tree.flattens_misplacedEach.regionTrees, List.flatMap_eq_nil_iff]
  exact nests_items ts

theorem not_isKind_regionTrees {ts : List Token} {c : Tree} (hc : c ∈ regionTrees ts)
    {k : NodeKind} (hk : k.isOperand = false) : ¬ c.isKind k = true := by
  intro hkind
  have hoperand := (nests_regionTrees ts).1 c hc
  have hsome : c.kind? = some k := by simpa [Tree.isKind] using hkind
  rw [hsome] at hoperand
  exact Bool.false_ne_true (hk.symm.trans hoperand)

theorem queries_regionTrees (k : NodeKind) (ts : List Token) :
    (Tree.node k (regionTrees ts)).queries = [] := by
  rw [Tree.queries, List.filter_eq_nil_iff]
  exact fun c hc => not_isKind_regionTrees hc rfl

theorem domain?_regionTrees (k : NodeKind) (ts : List Token) :
    (Tree.node k (regionTrees ts)).domain? = none := by
  rw [Tree.domain?, Tree.child?, List.find?_eq_none]
  exact fun c hc => not_isKind_regionTrees hc rfl

namespace Tree

mutual

theorem All.and {p q : NodeKind → List Tree → Prop} {t : Tree} (hp : t.All p) (hq : t.All q) :
    t.All fun k cs => p k cs ∧ q k cs := by
  cases t with
  | token t => simp
  | node k cs =>
      rw [all_node] at hp hq ⊢
      exact ⟨⟨hp.1, hq.1⟩, AllOf.and hp.2 hq.2⟩

theorem AllOf.and {p q : NodeKind → List Tree → Prop} {cs : List Tree} (hp : AllOf p cs)
    (hq : AllOf q cs) : AllOf (fun k cs => p k cs ∧ q k cs) cs := by
  cases cs with
  | nil => simp
  | cons c cs =>
      rw [allOf_cons] at hp hq ⊢
      exact ⟨All.and hp.1 hq.1, AllOf.and hp.2 hq.2⟩

end

end Tree

/-- A formed node whose children are admitted is orderly. -/
theorem NodeKind.orderly_of_formed {k : NodeKind} {cs : List Tree} (hnests : k.Nests cs)
    (h : k.Formed cs) : k.Orderly cs where
  nests := hnests
  operands := by
    rintro op rfl
    rcases h with h | h <;> omega
  unmixed := by
    rintro rfl
    cases h
  domain := by
    rintro rfl
    cases h
  body := by
    rintro rfl
    cases h

theorem orderly_regionTrees {ts : List Token} (hts : ∀ t ∈ ts, t.IsLexeme) :
    AllOf NodeKind.Orderly (regionTrees ts) :=
  ((nests_regionTrees ts).2.and (formed_regionTrees hts)).imp fun _ _ h =>
    NodeKind.orderly_of_formed h.1 h.2

/-- A region that is no program is orderly. -/
theorem orderly_region {k : NodeKind} (hk : k.isRegion = true) (hne : k ≠ .program)
    {ts : List Token} (hts : ∀ t ∈ ts, t.IsLexeme) :
    (Tree.node k (regionTrees ts)).All NodeKind.Orderly := by
  rw [Tree.all_node]
  refine ⟨⟨?_, ?_, fun hprogram => absurd hprogram hne, fun hprogram => absurd hprogram hne, ?_⟩,
    orderly_regionTrees hts⟩
  · have hnests := (nests_regionTrees ts).1
    cases k <;> cases hk <;> first | exact absurd rfl hne | exact hnests
  · rintro op rfl
    cases hk
  · rintro rfl
    cases hk

theorem countP_isKind_map_token (k : NodeKind) (ts : List Token) :
    (ts.map Tree.token).countP (Tree.isKind k) = 0 := by
  simp [List.countP_map, Function.comp_def, Tree.isKind, Tree.kind?]

theorem Section.orderly_tree {s : Section} (hs : ∀ t ∈ s.tokens, t.IsLexeme) :
    s.tree.All NodeKind.Orderly := by
  have hbody := orderly_region (k := .queryBody) rfl (by decide) (isLexeme_of_body hs)
  have hname : (Tree.leaf .queryName s.name).All NodeKind.Orderly := by
    rw [Tree.leaf, Tree.all_node]
    exact ⟨⟨by simp [NodeKind.Nests, Tree.kind?], by simp, by simp, by simp, by simp⟩, by simp⟩
  rw [tree, Tree.all_node]
  refine ⟨⟨?_, by simp, by simp, by simp, fun _ => ?_⟩, by simpa [hname] using hbody⟩
  · intro c hc
    simp only [List.cons_append, List.mem_cons, List.mem_append, List.mem_map, List.not_mem_nil,
      or_false] at hc
    rcases hc with rfl | rfl | ⟨t, -, rfl⟩ | rfl <;> rfl
  · simp [List.countP_append, Tree.isKind, Tree.kind?, Tree.leaf]

/-- No child of a region is a domain. -/
theorem countP_isKind_domain_regionTrees (ts : List Token) :
    (regionTrees ts).countP (Tree.isKind .domain) = 0 := by
  rw [List.countP_eq_zero]
  intro c hc
  have hadmits := (nests_regionTrees ts).1 c hc
  cases c with
  | token t => simp [Tree.isKind, Tree.kind?]
  | node k cs =>
      cases k <;> simp_all [Tree.isKind, Tree.kind?, NodeKind.admits, NodeKind.isOperand,
        NodeKind.isExpression]

theorem orderlyProgram_of_region {ts : List Token} (hts : ∀ t ∈ ts, t.IsLexeme) :
    (Tree.node .program (regionTrees ts)).OrderlyProgram := by
  refine ⟨rfl, ?_⟩
  rw [Tree.all_node]
  refine ⟨⟨?_, by simp, fun _ => Or.inl (nests_regionTrees ts).1, fun _ => ?_, by simp⟩,
    orderly_regionTrees hts⟩
  · intro c hc
    have hadmits := (nests_regionTrees ts).1 c hc
    cases c with
    | token t => rfl
    | node k cs => simp_all [Tree.kind?, NodeKind.admits]
  · simp [countP_isKind_domain_regionTrees]

theorem orderly_domainTrees {ts : List Token} (hts : ∀ t ∈ ts, t.IsLexeme) :
    (∀ c ∈ domainTrees ts, c.IsOuterPart) ∧ AllOf NodeKind.Orderly (domainTrees ts) ∧
      (domainTrees ts).countP (Tree.isKind .domain) ≤ 1 := by
  have hblanks : ∀ c ∈ (ts.takeWhile Token.isBlank).map Tree.token, c.IsOuterPart := by
    intro c hc
    obtain ⟨t, -, rfl⟩ := List.mem_map.1 hc
    rfl
  unfold domainTrees
  split
  · rw [List.append_nil]
    exact ⟨hblanks, by simp, by rw [countP_isKind_map_token]; omega⟩
  · have hdomain := orderly_region (k := .domain) rfl (by decide) (isLexeme_of_dropWhile hts)
    refine ⟨List.forall_mem_append.2 ⟨hblanks, ?_⟩, by simpa using hdomain, ?_⟩
    · simp [Tree.IsOuterPart, Tree.kind?]
    · rw [List.countP_append, countP_isKind_map_token]
      simp [Tree.isKind, Tree.kind?]

theorem orderly_sections {sections : List Section}
    (h : ∀ s ∈ sections, ∀ t ∈ s.tokens, t.IsLexeme) :
    AllOf NodeKind.Orderly (sections.map Section.tree) := by
  rw [Tree.allOf_iff_forall, List.forall_mem_map]
  exact fun s hs => s.orderly_tree (h s hs)

/-- A program of outer parts is orderly when these are. -/
theorem orderlyProgram_of_parts {cs : List Tree} (hparts : ∀ c ∈ cs, c.IsOuterPart)
    (hall : AllOf NodeKind.Orderly cs) (hcount : cs.countP (Tree.isKind .domain) ≤ 1) :
    (Tree.node .program cs).OrderlyProgram := by
  refine ⟨rfl, ?_⟩
  rw [Tree.all_node]
  refine ⟨⟨fun c hc => ?_, by simp, fun _ => Or.inr fun c hc => ?_, fun _ => hcount, by simp⟩, hall⟩
  all_goals
    have hpart := hparts c hc
    rw [Tree.IsOuterPart] at hpart
    cases hk : c.kind? with
    | none => rfl
    | some k =>
        rw [hk] at hpart
        cases k <;> first | rfl | cases hpart

theorem orderlyProgram_parseTokens {ts : List Token} (hts : ∀ t ∈ ts, t.IsLexeme) :
    (parseTokens ts).OrderlyProgram := by
  unfold parseTokens
  split
  · next run hcut => exact orderlyProgram_of_region (isLexeme_of_cut hts hcut).1
  · next run sections hne hcut =>
      obtain ⟨hrun, hsections⟩ := isLexeme_of_cut hts hcut
      obtain ⟨hparts, hall, hcount⟩ := orderly_domainTrees hrun
      have hqueries : ∀ c ∈ sections.map Section.tree, c.kind? = some .query := by
        intro c hc
        obtain ⟨s, -, rfl⟩ := List.mem_map.1 hc
        rfl
      refine orderlyProgram_of_parts (List.forall_mem_append.2 ⟨hparts, fun c hc => ?_⟩) ?_ ?_
      · rw [Tree.IsOuterPart, hqueries c hc]
        rfl
      · rw [Tree.allOf_append]
        exact ⟨hall, orderly_sections hsections⟩
      · have hnone : (sections.map Section.tree).countP (Tree.isKind .domain) = 0 := by
          rw [List.countP_eq_zero]
          intro c hc
          simp [Tree.isKind, hqueries c hc]
        rwa [List.countP_append, hnone]

/-- **The tree of any text is orderly.** -/
theorem orderlyProgram_parse (t : Text) : (parse t).OrderlyProgram :=
  orderlyProgram_parseTokens fun _ => isLexeme_of_mem_tokenize

end CardQuery
