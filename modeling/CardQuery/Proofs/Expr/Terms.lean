import CardQuery.Expr.Document
import CardQuery.Proofs.Expr.Canonical
import CardQuery.Proofs.Parse.Arrangement
import CardQuery.Proofs.Query.Extraction

/-!
# The terms of a text and the tags of its expressions

A document has an expression for the domain and one for each query. Their tags, in order, are those
that the terms of the tree ask for, in preorder: whatever is wrong with a text, no term gets lost on
the way, none comes twice and none changes its place.

`Tree.asked` stands between the two. It reads the tags of the terms by recursion on the tree, and
neither knows of places nor of expressions.

Main statement: the tags of a document are those of the terms, and a tag is written as its term is
(`tags_document_parse`).
-/

set_option autoImplicit false

namespace CardQuery

open CardQuery.Tree (AllOf kinds)

/-- The places of the terms of a tree, in preorder. -/
def Tree.terms (t : Tree) : List Focus :=
  t.nodes.filter Focus.isTerm

/-- The tags of a document: those of the domain and then those of each query. -/
def Document.tags (d : Document) : List QueryTag :=
  (d.domain.toList ++ d.entries.filterMap DocumentEntry.expr).flatMap Expr.tags

/-- Whether a term is a tag that has a sign and nothing else. -/
def Tree.IsLoneSign (t : Tree) : Prop :=
  t.kind? = some .tag ∧ t.children.map Tree.kind? = [some .sign]

/-- Whether a term compares its argument with something. -/
def Tree.isComparing (t : Tree) : Bool :=
  t.argument?.isSome && t.operator?.isSome

/-- The text of the sign of a term; a term without one has an empty text here. -/
def Tree.signText (t : Tree) : Text :=
  (t.sign?.map Tree.text).getD []

/-- Whether a kind is that of a word or a literal. -/
def NodeKind.isBare : NodeKind → Bool
  | .argument | .literal _ => true
  | _ => false

/-- Whether a term asks for a tag that is written as the term is. -/
structure Tree.SpellsItsTag (t : Tree) : Prop where
  /-- Only a lone sign asks for no tag. -/
  lone : QueryTag.ofTerm? t = none ↔ t.IsLoneSign
  /-- A comparison asks for the tag with its own text. -/
  comparing : t.isComparing = true → (QueryTag.ofTerm? t).map QueryTag.text = some t.text
  /-- Any other term is a word or a literal, behind a sign or without one, and in the text of its
  tag stands the argument for names between the two. -/
  bare : t.isComparing = false → ¬ t.IsLoneSign → ∃ w : Tree, w.kind?.any NodeKind.isBare = true ∧
    t.text = t.signText ++ w.text ∧
    (QueryTag.ofTerm? t).map QueryTag.text = some (t.signText ++ ("name:".toList ++ w.text))

/-! ## The tags that a tree asks for -/

/-- Any kind. -/
def NodeKind.isAny (_ : NodeKind) : Bool :=
  true

namespace Tree

mutual

/-- The tags that the terms of a tree ask for, without those in nodes of kinds that are not
entered. There is no term in a term. -/
def asked (enters : NodeKind → Bool) : Tree → List QueryTag
  | .token _ => []
  | .node k cs =>
    if k.isTerm then (QueryTag.ofTerm? (.node k cs)).toList
    else if enters k then askedEach enters cs
    else []

/-- The tags that the terms of several trees ask for. -/
def askedEach (enters : NodeKind → Bool) : List Tree → List QueryTag
  | [] => []
  | c :: cs => c.asked enters ++ askedEach enters cs

end

variable {enters : NodeKind → Bool}

@[simp] theorem asked_token (t : Token) : (token t).asked enters = [] := by
  simp [asked]

theorem asked_of_isTerm {k : NodeKind} (h : k.isTerm = true) (cs : List Tree) :
    (node k cs).asked enters = (QueryTag.ofTerm? (.node k cs)).toList := by
  simp [asked, h]

theorem asked_of_enters {k : NodeKind} (h : k.isTerm = false) (henters : enters k = true)
    (cs : List Tree) : (node k cs).asked enters = askedEach enters cs := by
  simp [asked, h, henters]

@[simp] theorem askedEach_nil : askedEach enters [] = [] := by
  simp [askedEach]

@[simp] theorem askedEach_cons (c : Tree) (cs : List Tree) :
    askedEach enters (c :: cs) = c.asked enters ++ askedEach enters cs := by
  simp [askedEach]

@[simp] theorem askedEach_append (xs ys : List Tree) :
    askedEach enters (xs ++ ys) = askedEach enters xs ++ askedEach enters ys := by
  induction xs with
  | nil => simp
  | cons x xs ih => simp [ih]

@[simp] theorem askedEach_map_token (ts : List Token) :
    askedEach enters (ts.map token) = [] := by
  induction ts with
  | nil => simp
  | cons t ts ih => simp [ih]

end Tree

/-! ## The terms among the places -/

/-- The tag that a place asks for, if a term stands there. -/
def Focus.asked? (f : Focus) : Option QueryTag :=
  if f.isTerm then QueryTag.ofTerm? f.tree else none

theorem Focus.asked?_token (t : Token) (start : Nat) (above : List Step) :
    asked? ⟨.token t, start, above⟩ = none := rfl

/-- A part of a tag is no term. -/
theorem Focus.asked?_of_tagPart {k : NodeKind} (hk : k.isTagPart = true) (cs : List Tree)
    (start : Nat) {s : Step} (hs : s.kind = .tag) (above : List Step) :
    asked? ⟨.node k cs, start, s :: above⟩ = none := by
  rw [asked?, if_neg]
  cases k <;> simp_all [isTerm, Tree.kind?, parentKind?, NodeKind.isTagPart]

/-- Outside any tag, the places with the kind of a term are terms. -/
theorem Focus.asked?_of_free {k : NodeKind} (cs : List Tree) (start : Nat) {above : List Step}
    (hfree : above.head?.map Step.kind ≠ some .tag) :
    asked? ⟨.node k cs, start, above⟩
      = if k.isTerm then QueryTag.ofTerm? (.node k cs) else none := by
  have hterm : isTerm ⟨.node k cs, start, above⟩ = k.isTerm := by
    cases k <;> simp_all [isTerm, Tree.kind?, parentKind?, NodeKind.isTerm]
  rw [asked?, hterm]

theorem Tree.filterMap_asked?_terms (t : Tree) :
    t.terms.filterMap (fun f => QueryTag.ofTerm? f.tree) = t.focuses.filterMap Focus.asked? := by
  rw [terms, nodes, List.filter_filter, List.filterMap_filter]
  refine List.filterMap_congr fun f _ => ?_
  rcases f with ⟨t | ⟨k, cs⟩, start, above⟩
  · rfl
  · simp [Focus.asked?, Tree.isNode, Tree.kind?]

namespace Tree

/-- Nothing is asked by tokens, wherever they stand. -/
theorem filterMap_focusesOf_map_token (above : List Step) (k : NodeKind) (nodeStart : Nat)
    (before : List Tree) (start : Nat) (ts : List Token) :
    (focusesOf above k nodeStart before start (ts.map token)).filterMap Focus.asked? = [] := by
  induction ts generalizing before start with
  | nil => rfl
  | cons t ts ih =>
      rw [List.map_cons, focusesOf, List.filterMap_append, ih, focusesFrom,
        List.filterMap_cons_none (Focus.asked?_token _ _ _)]
      rfl

end Tree

namespace NodeKind

/-- Only tokens stand in a part of a tag, and at least one. -/
theorem Arranged.exists_tokens {k : NodeKind} {cs : List Tree} (h : k.Arranged cs)
    (hk : k.isTagPart = true) : ∃ ts : List Token, ts ≠ [] ∧ cs = ts.map .token := by
  have hparts := h.parts
  cases k with
  | sign | argument | operator | literal =>
      obtain ⟨t, rfl, -⟩ := hparts
      exact ⟨[t], by simp, rfl⟩
  | value =>
      obtain ⟨ts, hne, rfl, -⟩ := hparts
      exact ⟨ts, hne, rfl⟩
  | _ => cases hk

end NodeKind

namespace Tree

/-- Nothing is asked by the parts of a tag. -/
theorem filterMap_focusesOf_tagParts (above : List Step) (nodeStart : Nat) (before : List Tree)
    (start : Nat) {cs : List Tree} (hparts : NodeKind.tag.Nests cs)
    (h : AllOf NodeKind.Arranged cs) :
    (focusesOf above .tag nodeStart before start cs).filterMap Focus.asked? = [] := by
  induction cs generalizing before start with
  | nil => rfl
  | cons c cs ih =>
      rw [allOf_cons] at h
      obtain ⟨hc, hcs⟩ := List.forall_mem_cons.1 hparts
      rw [focusesOf, List.filterMap_append, ih _ _ hcs h.2, List.append_nil]
      cases c with
      | token t => rfl
      | node k ds =>
          have hpart : k.isTagPart = true := hc
          rw [all_node] at h
          obtain ⟨ts, -, rfl⟩ := h.1.1.exists_tokens hpart
          rw [focusesFrom, List.filterMap_cons_none (Focus.asked?_of_tagPart hpart _ _ rfl _),
            filterMap_focusesOf_map_token]

mutual

/-- The terms among the places of a subtree ask for its tags, one by one and in preorder. -/
theorem filterMap_asked?_focusesFrom {t : Tree} (h : t.All NodeKind.Arranged) {above : List Step}
    (hfree : above.head?.map Step.kind ≠ some .tag) (start : Nat) :
    (focusesFrom above start t).filterMap Focus.asked? = t.asked NodeKind.isAny := by
  cases t with
  | token t => simp [focusesFrom, Focus.asked?_token]
  | node k cs =>
      rw [all_node] at h
      have hself := Focus.asked?_of_free (k := k) cs start hfree
      cases hterm : k.isTerm with
      | false =>
          have hne : k ≠ .tag := by rintro rfl; cases hterm
          rw [focusesFrom, List.filterMap_cons_none (by rw [hself, hterm]; rfl),
            asked_of_enters hterm rfl, filterMap_asked?_focusesOf h.2 hne]
      | true =>
          -- there are no terms in a term, only the parts of a tag or a token
          have hrest : (focusesOf above k start [] start cs).filterMap Focus.asked? = [] := by
            by_cases htag : k = .tag
            · subst htag
              exact filterMap_focusesOf_tagParts _ _ _ _ h.1.nests h.2
            · have hpart : k.isTagPart = true := by
                cases k <;> simp_all [NodeKind.isTerm, NodeKind.isTagPart]
              obtain ⟨ts, -, rfl⟩ := h.1.exists_tokens hpart
              exact filterMap_focusesOf_map_token _ _ _ _ _ _
          rw [focusesFrom, asked_of_isTerm hterm, List.filterMap_cons, hself, if_pos hterm, hrest]
          cases QueryTag.ofTerm? (.node k cs) <;> rfl

theorem filterMap_asked?_focusesOf {cs : List Tree} (h : AllOf NodeKind.Arranged cs)
    {k : NodeKind} (hk : k ≠ .tag) (above : List Step) (nodeStart : Nat) (before : List Tree)
    (start : Nat) :
    (focusesOf above k nodeStart before start cs).filterMap Focus.asked?
      = askedEach NodeKind.isAny cs := by
  cases cs with
  | nil => simp [focusesOf]
  | cons c cs =>
      rw [allOf_cons] at h
      have hfree : (⟨k, nodeStart, before, cs⟩ :: above : List Step).head?.map Step.kind
          ≠ some .tag := by simpa using hk
      rw [focusesOf, List.filterMap_append, askedEach_cons, filterMap_asked?_focusesFrom h.1 hfree,
        filterMap_asked?_focusesOf h.2 hk]

end

end Tree

/-! ## The tags of an expression -/

namespace Expr

/-- The tags of an expression that may be missing. -/
def tagsOf (e : Option Expr) : List QueryTag :=
  e.toList.flatMap tags

@[simp] theorem tagsOf_none : tagsOf none = [] := rfl

@[simp] theorem tagsOf_some (e : Expr) : tagsOf (some e) = e.tags := by
  simp [tagsOf]

theorem tagsOf_all? (es : List Expr) : tagsOf (all? es) = es.flatMap tags := by
  cases es with
  | nil => rfl
  | cons e es => rw [all?, tagsOf_some, tags_chain, List.flatMap_cons]

theorem tagsOf_combine? (op : Connective) (l r : Option Expr) :
    tagsOf (combine? op l r) = tagsOf l ++ tagsOf r := by
  rcases l with _ | l <;> rcases r with _ | r <;> simp [combine?, tags]

theorem flatMap_filterMap_id (es : List (Option Expr)) :
    (es.filterMap id).flatMap tags = es.flatMap tagsOf := by
  induction es with
  | nil => rfl
  | cons e es ih =>
      rw [List.flatMap_cons, ← ih]
      cases e <;> simp

end Expr

namespace Tree

open CardQuery.Expr (tagsOf)

/-- What is no expression has none. -/
theorem lower_eq_none {t : Tree} (h : t.isExpression = false) : t.lower = none := by
  cases t with
  | token t => simp [lower]
  | node k cs => cases k <;> first | (simp [lower]; done) | cases h

theorem flatMap_lowerEach (cs : List Tree) :
    (lowerEach cs).flatMap tagsOf = cs.flatMap fun c => tagsOf c.lower := by
  induction cs with
  | nil => simp [lowerEach]
  | cons c cs ih =>
      cases hc : c.isExpression with
      | true => simp [lowerEach, hc, ih]
      | false => simp [lowerEach, hc, ih, lower_eq_none hc]

theorem tagsOf_lower_clause (cs : List Tree) :
    tagsOf (node .clause cs).lower = (lowerEach cs).flatMap tagsOf := by
  rw [lower, ← Expr.flatMap_filterMap_id, ← Expr.tagsOf_all?]
  cases Expr.all? ((lowerEach cs).filterMap id) <;> simp [Expr.tags]

/-- With two operands at most, joining the first two loses none. -/
theorem tagsOf_lower_binary {op : Connective} {cs : List Tree}
    (h : NodeKind.AreOperands op (kinds cs)) :
    tagsOf (node (.binary op) cs).lower = (lowerEach cs).flatMap tagsOf := by
  have hlength : (lowerEach cs).length ≤ 2 := by
    obtain ⟨l, r, hkinds, -, -⟩ := h
    have hcount : nodeCount cs ≤ 2 := by
      rw [← length_kinds, hkinds]
      cases r <;> simp
    rw [lowerEach_eq_map, List.length_map]
    exact Nat.le_trans (length_expressions_le cs) hcount
  rw [lower, Expr.tagsOf_combine?]
  generalize lowerEach cs = operands at hlength
  rcases operands with _ | ⟨a, _ | ⟨b, _ | ⟨c, rest⟩⟩⟩
  · rfl
  · simp
  · simp
  · simp at hlength

mutual

/-- The expression of an operand has the tags that its terms ask for. -/
theorem tagsOf_lower {t : Tree} (hkind : t.kind?.all NodeKind.isOperand = true)
    (h : t.All NodeKind.Arranged) : tagsOf t.lower = t.asked NodeKind.isAny := by
  cases t with
  | token t => simp [lower]
  | node k cs =>
      rw [all_node] at h
      cases k with
      | tag | argument | literal =>
          rw [asked_of_isTerm rfl, lower]
          cases QueryTag.ofTerm? _ <;> simp [tagsOf, Expr.tags]
      | clause =>
          rw [tagsOf_lower_clause, flatMap_lowerEach, flatMap_lower h.1.nests h.2,
            asked_of_enters rfl rfl]
      | binary op =>
          rw [tagsOf_lower_binary h.1.parts, flatMap_lowerEach, flatMap_lower h.1.nests h.2,
            asked_of_enters rfl rfl]
      | error =>
          obtain ⟨ts, -, rfl⟩ := h.1.parts
          rw [asked_of_enters rfl rfl, askedEach_map_token, lower_eq_none rfl, Expr.tagsOf_none]
      | _ => cases hkind

theorem flatMap_lower {cs : List Tree} (hkinds : ∀ c ∈ cs, c.kind?.all NodeKind.isOperand = true)
    (h : AllOf NodeKind.Arranged cs) :
    (cs.flatMap fun c => tagsOf c.lower) = askedEach NodeKind.isAny cs := by
  cases cs with
  | nil => simp
  | cons c cs =>
      rw [allOf_cons] at h
      rw [List.forall_mem_cons] at hkinds
      rw [List.flatMap_cons, askedEach_cons, tagsOf_lower hkinds.1 h.1, flatMap_lower hkinds.2 h.2]

end

/-- The expression of a region has the tags that the terms in it ask for. -/
theorem tagsOf_lowerRegion {t : Tree}
    (hkinds : ∀ c ∈ t.children, c.kind?.all NodeKind.isOperand = true)
    (h : AllOf NodeKind.Arranged t.children) :
    tagsOf t.lowerRegion = askedEach NodeKind.isAny t.children := by
  rw [lowerRegion, Expr.tagsOf_all?, Expr.flatMap_filterMap_id, flatMap_lowerEach,
    flatMap_lower hkinds h]

end Tree

/-! ## The tags of a document -/

namespace Document

theorem tags_eq (d : Document) :
    d.tags = Expr.tagsOf d.domain ++ d.entries.flatMap fun q => Expr.tagsOf q.expr := by
  have hentries := Expr.flatMap_filterMap_id (d.entries.map DocumentEntry.expr)
  rw [List.filterMap_map, List.flatMap_map] at hentries
  rw [tags, List.flatMap_append]
  exact congrArg _ hentries

/-- The document of a text without headers. -/
theorem tags_ofTree_of_region (ts : List Token) :
    (ofTree (.node .program (regionTrees ts))).tags
      = Expr.tagsOf (Tree.node .program (regionTrees ts)).lowerRegion := by
  have hdocument : ofTree (.node .program (regionTrees ts))
      = ⟨none, (Tree.node .program (regionTrees ts)).lowerRegion.toList.map
          fun e => ⟨none, some e⟩⟩ := by
    simp [ofTree, queries_regionTrees]
  rw [hdocument, tags_eq]
  cases (Tree.node .program (regionTrees ts)).lowerRegion <;> simp

/-- The document of a text with headers. -/
theorem tags_ofTree_of_sections (run : List Token) {sections : List Section}
    (hne : sections ≠ []) :
    (ofTree (.node .program (domainTrees run ++ sections.map Section.tree))).tags
      = Expr.tagsOf ((Tree.node .program
          (domainTrees run ++ sections.map Section.tree)).domain?.bind Tree.lowerRegion)
        ++ sections.flatMap fun s => Expr.tagsOf (s.tree.queryBody?.bind Tree.lowerRegion) := by
  rw [tags_eq, ofTree, queries_of_sections]
  simp [hne, List.flatMap_map]

end Document

namespace Tree

theorem asked_section (s : Section) :
    s.tree.asked NodeKind.isAny
      = askedEach NodeKind.isAny (regionTrees (s.body.dropWhile Token.isBlank)) := by
  simp [Section.tree, asked, leaf, NodeKind.isTerm, NodeKind.isAny]

/-- What a region read from tokens asks for. -/
theorem tagsOf_lowerRegion_regionTrees {k : NodeKind} {ts : List Token}
    (h : (node k (regionTrees ts)).All NodeKind.Arranged) :
    Expr.tagsOf (node k (regionTrees ts)).lowerRegion
      = askedEach NodeKind.isAny (regionTrees ts) :=
  tagsOf_lowerRegion (nests_regionTrees ts).1 ((all_node _ _).1 h).2

/-- Only the domain asks for something in front of the first header. -/
theorem askedEach_domainTrees (run : List Token) :
    askedEach NodeKind.isAny (domainTrees run)
      = askedEach NodeKind.isAny (regionTrees (run.dropWhile Token.isBlank)) := by
  rw [domainTrees, askedEach_append, askedEach_map_token, List.nil_append]
  cases run.dropWhile Token.isBlank with
  | nil => rfl
  | cons t ts => simp [asked, NodeKind.isTerm, NodeKind.isAny]

theorem tagsOf_domain? {run : List Token} {sections : List Section}
    (h : (node .program (domainTrees run ++ sections.map Section.tree)).All NodeKind.Arranged) :
    Expr.tagsOf ((node .program (domainTrees run ++ sections.map Section.tree)).domain?.bind
      lowerRegion) = askedEach NodeKind.isAny (domainTrees run) := by
  have hdomain := domain?_of_sections run sections
  rw [askedEach_domainTrees]
  cases hsolid : run.dropWhile Token.isBlank with
  | nil =>
      rw [hsolid] at hdomain
      rw [hdomain]
      rfl
  | cons t ts =>
      rw [hsolid] at hdomain
      rw [hdomain, Option.bind_some, tagsOf_lowerRegion_regionTrees (all_of_child? h hdomain)]

theorem flatMap_queryBody? {run : List Token} {sections : List Section}
    (h : (node .program (domainTrees run ++ sections.map Section.tree)).All NodeKind.Arranged) :
    (sections.flatMap fun s => Expr.tagsOf (s.tree.queryBody?.bind lowerRegion))
      = askedEach NodeKind.isAny (sections.map Section.tree) := by
  rw [all_node, allOf_append] at h
  have hsections := h.2.2
  clear h
  induction sections with
  | nil => simp
  | cons s rest ih =>
      rw [List.map_cons, allOf_cons] at hsections
      have hbody := all_of_child? hsections.1 s.queryBody?_tree
      rw [List.flatMap_cons, ih hsections.2, List.map_cons, askedEach_cons, s.queryBody?_tree,
        Option.bind_some, tagsOf_lowerRegion_regionTrees hbody, asked_section]

/-- The expressions of a document have the tags that its tree asks for. -/
theorem tags_ofTree_eq_asked (t : Text) :
    (Document.ofTree (parse t)).tags = (parse t).asked NodeKind.isAny := by
  have hall := all_arranged_parse t
  rcases parse_cases t with ⟨hparse, -⟩ | ⟨run, sections, -, hne, -, -, hparse⟩
  · rw [hparse] at hall ⊢
    rw [Document.tags_ofTree_of_region, tagsOf_lowerRegion_regionTrees hall,
      asked_of_enters rfl rfl]
  · rw [hparse] at hall ⊢
    rw [Document.tags_ofTree_of_sections run hne, tagsOf_domain? hall, flatMap_queryBody? hall,
      asked_of_enters rfl rfl, askedEach_append]

end Tree

/-! ## How a term is written -/

/-- The parts of a tag: a sign with nothing behind it, a sign before a word or a literal, or a
comparison with a sign or without, whose value may be missing. -/
inductive TagParts : List Tree → Prop
  | loneSign {s : Tree} (hs : s.kind? = some .sign) : TagParts [s]
  | bare {s w : Tree} (hs : s.kind? = some .sign) (hw : w.kind?.any NodeKind.isBare = true) :
      TagParts [s, w]
  | comparing {sign value : Option Tree} {a op : Tree} (hsign : ∀ s ∈ sign, s.kind? = some .sign)
      (ha : a.kind? = some .argument) (hop : op.kind? = some .operator)
      (hvalue : ∀ v ∈ value, v.kind?.any NodeKind.isTagValue = true) :
      TagParts (sign.toList ++ a :: op :: value.toList)

namespace Tree

theorem exists_cons_of_kinds {cs : List Tree} {k : NodeKind} {ks : List NodeKind}
    (hnodes : ∀ c ∈ cs, c.isNode = true) (h : kinds cs = k :: ks) :
    ∃ c rest, cs = c :: rest ∧ c.kind? = some k ∧ kinds rest = ks ∧
      ∀ c ∈ rest, c.isNode = true := by
  cases cs with
  | nil => cases h
  | cons c rest =>
      obtain ⟨hc, hrest⟩ := List.forall_mem_cons.1 hnodes
      cases c with
      | token t => cases hc
      | node j ds =>
          obtain ⟨rfl, htail⟩ := List.cons_eq_cons.1 h
          exact ⟨_, rest, rfl, rfl, htail, hrest⟩

theorem eq_nil_of_kinds {cs : List Tree} (hnodes : ∀ c ∈ cs, c.isNode = true)
    (h : kinds cs = []) : cs = [] := by
  cases cs with
  | nil => rfl
  | cons c rest =>
      cases c with
      | token t => cases hnodes _ List.mem_cons_self
      | node j ds => cases h

/-- An argument and a comparison, with what stands behind them. -/
theorem tagParts_comparing (sign : Option Tree) (hsign : ∀ s ∈ sign, s.kind? = some .sign)
    {cs : List Tree} (hnodes : ∀ c ∈ cs, c.isNode = true)
    (h : NodeKind.isComparing (kinds cs) = true) : TagParts (sign.toList ++ cs) := by
  unfold NodeKind.isComparing at h
  split at h
  · next hkinds =>
      obtain ⟨a, _, rfl, ha, htail, hnodes⟩ := exists_cons_of_kinds hnodes hkinds
      obtain ⟨op, _, rfl, hop, htail, hnodes⟩ := exists_cons_of_kinds hnodes htail
      rw [eq_nil_of_kinds hnodes htail]
      exact @TagParts.comparing sign none a op hsign ha hop (by simp)
  · next k hkinds =>
      obtain ⟨a, _, rfl, ha, htail, hnodes⟩ := exists_cons_of_kinds hnodes hkinds
      obtain ⟨op, _, rfl, hop, htail, hnodes⟩ := exists_cons_of_kinds hnodes htail
      obtain ⟨v, _, rfl, hv, htail, hnodes⟩ := exists_cons_of_kinds hnodes htail
      rw [eq_nil_of_kinds hnodes htail]
      exact @TagParts.comparing sign (some v) a op hsign ha hop (by simp [hv, h])
  · cases h

theorem tagParts_of_parts {cs : List Tree} (h : NodeKind.tag.Parts cs) : TagParts cs := by
  obtain ⟨hnodes, hparts⟩ := h
  unfold NodeKind.areTagParts at hparts
  split at hparts
  · next hkinds =>
      obtain ⟨s, _, rfl, hs, htail, hnodes⟩ := exists_cons_of_kinds hnodes hkinds
      rw [eq_nil_of_kinds hnodes htail]
      exact .loneSign hs
  · next hkinds =>
      obtain ⟨s, _, rfl, hs, htail, hnodes⟩ := exists_cons_of_kinds hnodes hkinds
      obtain ⟨w, _, rfl, hw, htail, hnodes⟩ := exists_cons_of_kinds hnodes htail
      rw [eq_nil_of_kinds hnodes htail]
      exact .bare hs (by rw [hw]; rfl)
  · next hkinds =>
      obtain ⟨s, _, rfl, hs, htail, hnodes⟩ := exists_cons_of_kinds hnodes hkinds
      obtain ⟨w, _, rfl, hw, htail, hnodes⟩ := exists_cons_of_kinds hnodes htail
      rw [eq_nil_of_kinds hnodes htail]
      exact .bare hs (by rw [hw]; rfl)
  · next ks _ _ _ hkinds =>
      obtain ⟨s, rest, rfl, hs, rfl, hnodes⟩ := exists_cons_of_kinds hnodes hkinds
      exact tagParts_comparing (some s) (by simpa using hs) hnodes hparts
  · exact tagParts_comparing none (by simp) hnodes hparts

theorem text_node_cons (k : NodeKind) (c : Tree) (cs : List Tree) :
    (node k (c :: cs)).text = c.text ++ (node k cs).text := by
  simp [text]

theorem text_node_nil (k : NodeKind) : (node k []).text = [] := by
  simp [text, tokensText]

section Spelling

variable {s w : Tree}

theorem spellsItsTag_loneSign (hs : s.kind? = some .sign) : (node .tag [s]).SpellsItsTag := by
  have hnone : QueryTag.ofTerm? (node .tag [s]) = none := by
    simp [QueryTag.ofTerm?, kind?_node, argument?, value?, child?, children, isKind, hs,
      NodeKind.isTagValue]
  have hlone : (node .tag [s]).IsLoneSign := ⟨rfl, by simp [children, hs]⟩
  have hcomparing : (node .tag [s]).isComparing = false := by
    simp [isComparing, argument?, child?, children, isKind, hs]
  exact ⟨iff_of_true hnone hlone, fun h => by simp [hcomparing] at h,
    fun _ hnot => absurd hlone hnot⟩

theorem spellsItsTag_bare (hs : s.kind? = some .sign) (hw : w.kind?.any NodeKind.isBare = true) :
    (node .tag [s, w]).SpellsItsTag := by
  have hsign : (node .tag [s, w]).signText = s.text := by
    simp [signText, sign?, child?, children, isKind, hs]
  have htag : QueryTag.ofTerm? (node .tag [s, w]) = some (.ofName (some s.text) w.text) := by
    obtain ⟨k, hk, hbare⟩ := (Option.any_eq_true _ _).1 hw
    cases k with
    | argument | literal =>
        simp [QueryTag.ofTerm?, sign?, argument?, operator?, value?, child?, children, isKind, hs,
          hk, NodeKind.isTagValue]
    | _ => cases hbare
  constructor
  · simp [htag, IsLoneSign, children]
  · intro hcomparing
    have hop : (node .tag [s, w]).operator? = none := by
      obtain ⟨k, hk, hbare⟩ := (Option.any_eq_true _ _).1 hw
      cases k <;> simp_all [operator?, child?, children, isKind, NodeKind.isBare]
    simp [isComparing, hop] at hcomparing
  · intro _ _
    refine ⟨w, hw, ?_, ?_⟩
    · simp [hsign, text_node_cons, text_node_nil]
    · simp [htag, hsign, QueryTag.text, QueryTag.ofName]

theorem spellsItsTag_comparing {sign value : Option Tree} {a op : Tree}
    (hsign : ∀ s ∈ sign, s.kind? = some .sign) (ha : a.kind? = some .argument)
    (hop : op.kind? = some .operator)
    (hvalue : ∀ v ∈ value, v.kind?.any NodeKind.isTagValue = true) :
    (node .tag (sign.toList ++ a :: op :: value.toList)).SpellsItsTag := by
  have hunsigned : ∀ v ∈ value, v.kind? ≠ some .sign := by
    intro v hv hkind
    have hpart := hvalue v hv
    rw [hkind] at hpart
    cases hpart
  have htag : QueryTag.ofTerm? (node .tag (sign.toList ++ a :: op :: value.toList))
      = some ⟨sign.map text, a.text, op.text, (value.map text).getD []⟩ := by
    rcases sign with _ | s <;> rcases value with _ | v <;>
      simp_all [QueryTag.ofTerm?, sign?, argument?, operator?, value?, child?, children, isKind,
        NodeKind.isTagValue]
  have htext : (node .tag (sign.toList ++ a :: op :: value.toList)).text
      = (sign.map text).getD [] ++ a.text ++ op.text ++ (value.map text).getD [] := by
    rcases sign with _ | s <;> rcases value with _ | v <;> simp [text_node_cons, text_node_nil]
  constructor
  · rw [htag]
    rcases sign with _ | s <;> simp [IsLoneSign, children]
  · intro _
    rw [htag, htext]
    rfl
  · intro hnot
    have hcomparing :
        (node .tag (sign.toList ++ a :: op :: value.toList)).isComparing = true := by
      rcases sign with _ | s <;>
        simp_all [isComparing, argument?, operator?, child?, children, isKind]
    simp [hcomparing] at hnot

/-- A word or a literal that stands alone. -/
theorem spellsItsTag_free {k : NodeKind} (hk : k.isBare = true) (t : Token) :
    (node k [.token t]).SpellsItsTag := by
  have htag : QueryTag.ofTerm? (node k [.token t])
      = some (.ofName none (node k [.token t]).text) := by
    cases k <;> first | rfl | cases hk
  have hsign : (node k [.token t]).signText = [] := rfl
  constructor
  · simp [htag, IsLoneSign, children]
  · intro hcomparing
    cases hcomparing
  · intro _ _
    exact ⟨node k [.token t], by simpa using hk, by rw [hsign]; rfl,
      by rw [htag, hsign]; rfl⟩

end Spelling

/-- Where the nodes are arranged, a term asks for a tag that is written as the term is. -/
theorem spellsItsTag_of_arranged {k : NodeKind} {cs : List Tree} (h : k.Arranged cs)
    (hk : k.isTerm = true) : (node k cs).SpellsItsTag := by
  cases k with
  | tag =>
      cases tagParts_of_parts h.parts with
      | loneSign hs => exact spellsItsTag_loneSign hs
      | bare hs hw => exact spellsItsTag_bare hs hw
      | comparing hsign ha hop hvalue => exact spellsItsTag_comparing hsign ha hop hvalue
  | argument | literal =>
      obtain ⟨t, rfl, -⟩ := h.parts
      exact spellsItsTag_free rfl t
  | _ => cases hk

end Tree

/-- A property of all nodes holds of the subtree at every place. -/
theorem Tree.all_of_mem_focuses {p : NodeKind → List Tree → Prop} {t : Tree} (h : t.All p)
    {f : Focus} (hf : f ∈ t.focuses) : f.tree.All p := by
  have hwhole : f.whole = t := whole_of_mem_focusesFrom hf
  rw [← hwhole] at h
  exact Focus.all_of_wholeFrom h

theorem Focus.isTerm_kind {f : Focus} (h : f.isTerm = true) :
    ∃ k cs, f.tree = .node k cs ∧ k.isTerm = true := by
  rcases f with ⟨t | ⟨k, cs⟩, start, above⟩
  · cases h
  · refine ⟨k, cs, rfl, ?_⟩
    cases k <;> first | rfl | cases h

/-- **A document has the tags of the terms, each once and in order.** Whatever is wrong with a
text, the tags of its expressions, that of the domain before those of the queries, are those that
the terms of its tree ask for in preorder. Only a lone sign asks for none, a comparison asks for a
tag with its own text, and in the text of any other tag stands the argument for names behind the
sign. -/
theorem tags_document_parse (t : Text) :
    (Document.ofTree (parse t)).tags
        = (parse t).terms.filterMap (fun f => QueryTag.ofTerm? f.tree) ∧
      ∀ f ∈ (parse t).terms, f.tree.SpellsItsTag := by
  have hall := all_arranged_parse t
  constructor
  · rw [Tree.tags_ofTree_eq_asked, Tree.filterMap_asked?_terms, Tree.focuses,
      Tree.filterMap_asked?_focusesFrom hall (by simp)]
  · intro f hf
    have hplace : f ∈ (parse t).focuses :=
      (List.mem_filter.1 (List.mem_filter.1 hf).1).1
    obtain ⟨k, cs, htree, hk⟩ := f.isTerm_kind (List.mem_filter.1 hf).2
    have harranged := Tree.all_of_mem_focuses hall hplace
    rw [htree, Tree.all_node] at harranged
    rw [htree]
    exact Tree.spellsItsTag_of_arranged harranged.1 hk

/-- A domain with a lone sign, and a query with a clause that is not closed and an `or` whose right
operand has no value. -/
theorem tags_document_parse_half_typed :
    (Document.ofTree (parse "a -\nq: (-\"b\" or x:".toList)).tags.map QueryTag.text
        = ["name:a".toList, "-name:\"b\"".toList, "x:".toList] ∧
      ∃ f ∈ (parse "a -\nq: (-\"b\" or x:".toList).terms, f.tree.IsLoneSign ∧
        QueryTag.ofTerm? f.tree = none := by
  obtain ⟨htags, hspells⟩ := tags_document_parse "a -\nq: (-\"b\" or x:".toList
  have hmem : ∃ f ∈ (parse "a -\nq: (-\"b\" or x:".toList).terms,
      f.tree.kind? = some .tag ∧ f.tree.children.map Tree.kind? = [some .sign] := by
    decide +kernel
  constructor
  · rw [htags]
    decide +kernel
  · obtain ⟨f, hf, hlone⟩ := hmem
    exact ⟨f, hf, hlone, (hspells f hf).lone.2 hlone⟩

end CardQuery
