import CardQuery.Proofs.Parse.Region
import CardQuery.Proofs.Tree.Defect

/-!
# The tree of a text without errors

What stands before the first header and the body of each query are read on their own, so a text is
without errors just when each of them is. The queries of its tree are the sections that it was cut
into.

Main statement: `faultless_parseTokens_iff`.
-/

set_option autoImplicit false

namespace CardQuery

/-! ## Errors -/

theorem faultlessEach_domainTrees (ts : List Token) :
    Tree.faultlessEach (domainTrees ts) = Tree.faultlessEach (regionTrees ts) := by
  rw [← faultlessEach_regionTrees_dropWhile ts]
  unfold domainTrees
  split
  · next hnil => simp [hnil, regionTrees_eq_joined, items]
  · next ts' _ =>
      simp [Tree.faultless_of_isRegion (k := .domain) rfl]

theorem Section.faultless_tree (s : Section) :
    s.tree.faultless = Tree.faultlessEach (regionTrees s.body) := by
  rw [← faultlessEach_regionTrees_dropWhile s.body]
  simp [Section.tree, Tree.leaf, Tree.faultless_node, openingProblem?, closingProblem?]

/-- The regions of a text: what stands before the first header, and the body of each query. -/
def regionsOf (ts : List Token) : List (List Token) :=
  (cutAtHeaders ts).1 :: (cutAtHeaders ts).2.map Section.body

theorem part_of_mem_regionsOf {ts region : List Token} (h : region ∈ regionsOf ts) :
    region <:+: ts := by
  have hcut : (cutAtHeaders ts).1 ++ (cutAtHeaders ts).2.flatMap Section.tokens = ts :=
    cutFrom_tokens true true ts
  rcases List.mem_cons.1 h with rfl | h
  · exact ⟨[], _, by simpa using hcut⟩
  · obtain ⟨s, hs, rfl⟩ := List.mem_map.1 h
    obtain ⟨before, after, hsections⟩ := List.append_of_mem hs
    rw [hsections, List.flatMap_append, List.flatMap_cons] at hcut
    refine ⟨(cutAtHeaders ts).1 ++ before.flatMap Section.tokens ++ [s.name, s.colon],
      after.flatMap Section.tokens, ?_⟩
    simpa [Section.tokens] using hcut

/-- What holds of the outer nodes of a text and in its regions holds in its tree. The blanks at the
start of a domain or of a body stand outside of it. -/
theorem all_parseTokens_of_outer {P : NodeKind → List Tree → Prop} {ts : List Token}
    (hprogram : P .program (parseTokens ts).children)
    (hregion : ∀ region ∈ regionsOf ts, ∀ k, k = .domain ∨ k = .queryBody →
      P k (regionTrees (region.dropWhile Token.isBlank)))
    (hquery : ∀ s ∈ (cutAtHeaders ts).2, P .query s.tree.children ∧ P .queryName [.token s.name])
    (h : ∀ region ∈ regionsOf ts, Tree.AllOf P (regionTrees region) ∧
      Tree.AllOf P (regionTrees (region.dropWhile Token.isBlank))) :
    (parseTokens ts).All P := by
  obtain ⟨⟨hwhole, hdomain⟩, hbodies⟩ := List.forall_mem_cons.1 h
  obtain ⟨hdomainkind, hbodykinds⟩ := List.forall_mem_cons.1 hregion
  rw [List.forall_mem_map] at hbodies hbodykinds
  have hsection : ∀ s ∈ (cutAtHeaders ts).2, s.tree.All P := by
    intro s hs
    have hquery' : P .query _ := (hquery s hs).1
    rw [Section.tree, Tree.all_node]
    refine ⟨hquery', ?_⟩
    simp [Tree.leaf, (hquery s hs).2, hbodykinds s hs .queryBody (Or.inr rfl), (hbodies s hs).2]
  unfold parseTokens at hprogram ⊢
  split at hprogram
  · next run hcut =>
      rw [hcut] at hwhole
      rw [Tree.all_node]
      exact ⟨hprogram, hwhole⟩
  · next run sections hne hcut =>
      rw [hcut] at hdomain hsection hdomainkind
      have hrun : Tree.AllOf P (domainTrees run) := by
        unfold domainTrees
        split
        · simp
        · simpa using ⟨hdomainkind .domain (Or.inl rfl), hdomain⟩
      rw [Tree.all_node, Tree.allOf_append]
      refine ⟨hprogram, hrun, Tree.allOf_iff_forall.2 fun c hc => ?_⟩
      obtain ⟨s, hs, rfl⟩ := List.mem_map.1 hc
      exact hsection s hs

/-- What holds of all nodes of the outer kinds and in the regions of a text holds in its tree. -/
theorem all_parseTokens {P : NodeKind → List Tree → Prop}
    (houter : ∀ k cs, NodeKind.isOuter k = true → P k cs) {ts : List Token}
    (h : ∀ region ∈ regionsOf ts, Tree.AllOf P (regionTrees region) ∧
      Tree.AllOf P (regionTrees (region.dropWhile Token.isBlank))) :
    (parseTokens ts).All P := by
  refine all_parseTokens_of_outer (houter _ _ rfl) ?_
    (fun s _ => ⟨houter _ _ rfl, houter _ _ rfl⟩) h
  rintro region - k (rfl | rfl) <;> exact houter _ _ rfl

/-- A text is without errors just when each of its regions is. -/
theorem faultless_parseTokens_iff (ts : List Token) :
    (parseTokens ts).faultless = true
      ↔ ∀ region ∈ regionsOf ts, Tree.faultlessEach (regionTrees region) = true := by
  unfold parseTokens regionsOf
  split
  · next run hcut =>
      simp [hcut, Tree.faultless_of_isRegion (k := .program) rfl]
  · next run sections hne hcut =>
      simp [hcut, Tree.faultless_of_isRegion (k := .program) rfl, faultlessEach_domainTrees,
        Tree.faultlessEach_eq_true_iff, Section.faultless_tree]

/-- The regions of a text without errors are read without errors, and back from their own text. -/
theorem reads_of_mem_regionsOf {t : Text} (h : syntaxErrors (parse t) = []) {ts : List Token}
    (hts : ts ∈ regionsOf (tokenize t)) : (∃ tree, Reads ts tree) ∧ Lexed ts := by
  rw [syntaxErrors_eq_nil_iff, parse, faultless_parseTokens_iff] at h
  obtain ⟨tree, htree⟩ := reads_of_faultless (h ts hts)
  exact ⟨⟨tree, htree⟩, htree.spells.lexed_of_part (part_of_mem_regionsOf hts)⟩

/-! ## The parts of the tree -/

/-- The nodes of a region without errors are expressions. -/
theorem Reads.isExpression_of_mem {ts : List Token} {t : Option Tree} (h : Reads ts t) {c : Tree}
    {k : NodeKind} (hc : c ∈ regionTrees ts) (hk : c.kind? = some k) : k.isExpression = true := by
  have hkinds : (regionTrees ts).filterMap Tree.kind? = t.toList.filterMap Tree.kind? := by
    rw [← h.squeezeEach_regionTrees, Tree.filterMap_kind?_squeezeEach]
  have hmem : k ∈ (regionTrees ts).filterMap Tree.kind? := List.mem_filterMap.2 ⟨c, hc, hk⟩
  rw [hkinds] at hmem
  cases t with
  | none => cases hmem
  | some t =>
      have hexpr := h.shape.isExpression
      have hkind : t.kind? = some k := by simpa using hmem
      simpa [Tree.isExpression, hkind] using hexpr

/-- A region without errors has no child of any other kind. -/
theorem Reads.not_isKind {ts : List Token} {t : Option Tree} (h : Reads ts t) {c : Tree}
    (hc : c ∈ regionTrees ts) {k : NodeKind} (hk : k.isExpression = false) : ¬ c.isKind k := by
  intro hkind
  have hexpr := h.isExpression_of_mem hc (k := k) (by simpa [Tree.isKind] using hkind)
  rw [hk] at hexpr
  cases hexpr

theorem Reads.queries_eq_nil {ts : List Token} {t : Option Tree} (h : Reads ts t) (k : NodeKind) :
    (Tree.node k (regionTrees ts)).queries = [] := by
  rw [Tree.queries, List.filter_eq_nil_iff]
  exact fun c hc => h.not_isKind hc rfl

theorem Section.queryName?_tree (s : Section) :
    s.tree.queryName?.map Tree.text = some s.name.text := by
  simp [Section.tree, Tree.queryName?, Tree.child?, Tree.children, Tree.isKind, Tree.leaf,
    Tree.text]

theorem find?_map_token (k : NodeKind) (ts : List Token) :
    (ts.map Tree.token).find? (Tree.isKind k) = none := by
  rw [List.find?_eq_none]
  intro c hc
  obtain ⟨t, -, rfl⟩ := List.mem_map.1 hc
  simp [Tree.isKind]

theorem Section.queryBody?_tree (s : Section) :
    s.tree.queryBody? = some (.node .queryBody (regionTrees (s.body.dropWhile Token.isBlank))) := by
  rw [Tree.queryBody?, Tree.child?, Section.tree, Tree.children, List.cons_append,
    List.find?_cons_of_neg (by simp [Tree.isKind, Tree.leaf]), List.cons_append,
    List.find?_cons_of_neg (by simp [Tree.isKind]), List.find?_append, find?_map_token]
  rfl

/-- The domain of a text with headers: what stands before the first, if that is more than
blanks. -/
theorem domain?_of_sections (run : List Token) (sections : List Section) :
    (Tree.node .program (domainTrees run ++ sections.map Section.tree)).domain?
      = match run.dropWhile Token.isBlank with
        | [] => none
        | solid => some (.node .domain (regionTrees solid)) := by
  have hsections : (sections.map Section.tree).find? (Tree.isKind .domain) = none := by
    rw [List.find?_eq_none]
    intro c hc
    obtain ⟨s, -, rfl⟩ := List.mem_map.1 hc
    simp [Section.tree, Tree.isKind]
  rw [Tree.domain?, Tree.child?, Tree.children, List.find?_append, hsections, domainTrees,
    List.find?_append, find?_map_token]
  cases run.dropWhile Token.isBlank with
  | nil => rfl
  | cons t ts => simp [Tree.isKind]

theorem meaning_domain? (run : List Token) (sections : List Section) :
    (Tree.node .program (domainTrees run ++ sections.map Section.tree)).domain?.bind
      Tree.lowerRegion = meaning run := by
  rw [domain?_of_sections, ← meaning_dropWhile]
  cases run.dropWhile Token.isBlank <;> rfl

theorem isKind_query_domainTrees {run : List Token} {c : Tree} (hc : c ∈ domainTrees run) :
    c.isKind .query = false := by
  rcases List.mem_append.1 hc with hc | hc
  · obtain ⟨t, -, rfl⟩ := List.mem_map.1 hc
    simp [Tree.isKind]
  · split at hc
    · cases hc
    · rw [List.mem_singleton.1 hc]
      simp [Tree.isKind]

theorem queries_of_sections (run : List Token) (sections : List Section) :
    (Tree.node .program (domainTrees run ++ sections.map Section.tree)).queries
      = sections.map Section.tree := by
  have hdomain : (domainTrees run).filter (Tree.isKind .query) = [] := by
    rw [List.filter_eq_nil_iff]
    exact fun c hc => by simp [isKind_query_domainTrees hc]
  have hsections : (sections.map Section.tree).filter (Tree.isKind .query)
      = sections.map Section.tree := by
    rw [List.filter_eq_self]
    intro c hc
    obtain ⟨s, -, rfl⟩ := List.mem_map.1 hc
    simp [Section.tree, Tree.isKind]
  rw [Tree.queries, Tree.children, List.filter_append, hdomain, hsections, List.nil_append]

end CardQuery
