import CardQuery.Proofs.Parse.Nesting
import CardQuery.Proofs.Query.Trim

/-!
# The regions of a text and their segments

The regions of a text are its domain and the bodies of its queries. The query document of a text
has a segment for each of them, in the same order, since no domain is blank. When the text is
without errors its regions are read without errors too.

Main statements: `QueryDocument.rel_domain_of_isDocument`,
`QueryDocument.forall₂_bodies_of_isDocument` and `soundRegion_of_mem_regions`.
-/

set_option autoImplicit false

namespace CardQuery

/-! ## The places of the children -/

namespace Focus

theorem map_tree_childrenFrom (above : List Step) (k : NodeKind) (nodeStart : Nat)
    (before : List Tree) (start : Nat) (cs : List Tree) :
    (childrenFrom above k nodeStart before start cs).map Focus.tree = cs := by
  induction cs generalizing before start with
  | nil => rfl
  | cons c cs ih => rw [childrenFrom, List.map_cons, ih]

/-- The places of the children are places of the children of the tree. -/
theorem map_tree_children (f : Focus) : f.children.map Focus.tree = f.tree.children := by
  rcases f with ⟨t, start, above⟩
  cases t with
  | token t => rfl
  | node k cs => exact map_tree_childrenFrom above k start [] start cs

theorem map_tree_child? (f : Focus) (k : NodeKind) :
    (f.child? k).map Focus.tree = f.tree.child? k := by
  rw [Tree.child?, ← map_tree_children, List.find?_map]
  rfl

/-- The places of the queries are places of the queries of the tree. -/
theorem map_tree_queries (f : Focus) :
    (f.children.filter fun c => c.tree.isKind .query).map Focus.tree = f.tree.queries := by
  rw [Tree.queries, ← map_tree_children, List.filter_map]
  rfl

end Focus

/-! ## Regions -/

namespace Tree

/-- The bodies of the queries of a program. A program without headers is one body, unless it is
blank. -/
def bodyRegions (t : Tree) : List Tree :=
  if t.queries.isEmpty then if t.trimmedText.isEmpty then [] else [t]
  else t.queries.filterMap queryBody?

/-- The regions of a program: the domain, and the bodies of the queries. -/
def regions (t : Tree) : List Tree :=
  t.domain?.toList ++ t.bodyRegions

end Tree

/-- Whether a program has a segment for each of its regions: a domain only where there are queries
and never a blank one, and a body in each query. -/
structure Tree.IsDocument (t : Tree) : Prop where
  isProgram : t.kind? = some .program
  domain?_eq_none : t.queries = [] → t.domain? = none
  isSome_queryBody? : ∀ q ∈ t.queries, q.queryBody?.isSome
  trimmedText_domain : ∀ region ∈ t.domain?, region.trimmedText ≠ []

/-- The segments of a document: that of the domain, and those of the queries. -/
def QueryDocument.segments (d : QueryDocument) : List Segment :=
  d.domain.toList ++ d.queries.map Query.body

/-- Whether a segment is that of a region, wherever the region stands. -/
def IsSegment (region : Tree) (s : Segment) : Prop :=
  ∃ start above, s = .ofRegion ⟨region, start, above⟩

theorem isSegment_ofRegion (f : Focus) : IsSegment f.tree (.ofRegion f) :=
  ⟨f.start, f.above, rfl⟩

theorem IsSegment.filter_eq {region : Tree} {s : Segment} (h : IsSegment region s) :
    s.filter = residualText region.stripRegion.kept := by
  obtain ⟨start, above, rfl⟩ := h
  rfl

/-- The tree of a region that is read without errors. -/
inductive SoundRegion : Tree → Prop
  | intro {k : NodeKind} {ts : List Token} {t : Option Tree} (hk : k.isRegion = true)
      (h : Reads ts t) (hlexed : Lexed ts) : SoundRegion (.node k (regionTrees ts))

/-- A region is read without errors as well without the blanks at its start. -/
theorem Reads.exists_dropWhile {ts : List Token} {t : Option Tree} (h : Reads ts t) :
    ∃ t', Reads (ts.dropWhile Token.isBlank) t' := by
  apply reads_of_faultless
  rw [faultlessEach_regionTrees_dropWhile]
  exact faultlessEach_regionTrees_iff.2 ⟨t, h⟩

theorem Lexed.dropWhile {ts : List Token} (h : Lexed ts) : Lexed (ts.dropWhile Token.isBlank) :=
  h.of_part (List.dropWhile_suffix Token.isBlank).isInfix

/-! ## Programs -/

theorem queryBody?_sections (sections : List Section) :
    (sections.map Section.tree).filterMap Tree.queryBody?
      = sections.map fun s => .node .queryBody (regionTrees (s.body.dropWhile Token.isBlank)) := by
  rw [List.filterMap_map, ← List.filterMap_eq_map]
  exact List.filterMap_congr fun s _ => s.queryBody?_tree

/-- A program without headers has no other body than itself. -/
theorem eq_of_mem_bodyRegions {k : NodeKind} {ts : List Token} {region : Tree}
    (h : region ∈ (Tree.node k (regionTrees ts)).bodyRegions) :
    region = .node k (regionTrees ts) := by
  rw [Tree.bodyRegions, queries_regionTrees, if_pos List.isEmpty_nil] at h
  split at h
  · cases h
  · exact List.mem_singleton.1 h

theorem bodyRegions_of_sections {sections : List Section} (hne : sections ≠ [])
    (run : List Token) :
    (Tree.node .program (domainTrees run ++ sections.map Section.tree)).bodyRegions
      = sections.map fun s => .node .queryBody (regionTrees (s.body.dropWhile Token.isBlank)) := by
  have hqueries : (sections.map Section.tree).isEmpty = false := by simpa using hne
  rw [Tree.bodyRegions, queries_of_sections, hqueries, if_neg (by simp), queryBody?_sections]

/-- The domain of a program is what is not blank before the first header. -/
theorem eq_of_mem_domain? {run : List Token} {sections : List Section} {region : Tree}
    (h : region ∈ (Tree.node .program (domainTrees run ++ sections.map Section.tree)).domain?) :
    run.dropWhile Token.isBlank ≠ [] ∧
      region = .node .domain (regionTrees (run.dropWhile Token.isBlank)) := by
  rw [domain?_of_sections] at h
  split at h
  · cases h
  · next hne => exact ⟨hne, (Option.some.inj h).symm⟩

theorem isDocument_region (ts : List Token) :
    (Tree.node .program (regionTrees ts)).IsDocument where
  isProgram := rfl
  domain?_eq_none _ := domain?_regionTrees _ _
  isSome_queryBody? := by simp [queries_regionTrees]
  trimmedText_domain := by simp [domain?_regionTrees]

theorem isDocument_sections {run : List Token} {sections : List Section} (hne : sections ≠ [])
    (hrun : ∀ t ∈ run, t.IsLexeme) :
    (Tree.node .program (domainTrees run ++ sections.map Section.tree)).IsDocument := by
  refine ⟨rfl, fun hnone => ?_, fun q hq => ?_, fun region hregion => ?_⟩
  · rw [queries_of_sections, List.map_eq_nil_iff] at hnone
    exact absurd hnone hne
  · rw [queries_of_sections] at hq
    obtain ⟨s, -, rfl⟩ := List.mem_map.1 hq
    rw [s.queryBody?_tree]
    rfl
  · obtain ⟨hsolid, rfl⟩ := eq_of_mem_domain? hregion
    exact trimmedText_ne_nil (isLexeme_of_dropWhile hrun) hsolid (head?_dropWhile_isBlank run) _

/-! ## The tree of a text without errors -/

/-- The tree of a text without errors, by what it was cut into. -/
inductive SoundProgram : Tree → Prop
  | region {ts : List Token} {t : Option Tree} (h : Reads ts t) (hlexed : Lexed ts) :
      SoundProgram (.node .program (regionTrees ts))
  | sections {run : List Token} {sections : List Section} (hne : sections ≠ [])
      (hrun : (∃ t, Reads run t) ∧ Lexed run)
      (hbodies : ∀ s ∈ sections, (∃ t, Reads s.body t) ∧ Lexed s.body) :
      SoundProgram (.node .program (domainTrees run ++ sections.map Section.tree))

theorem soundProgram_parse {t : Text} (h : syntaxErrors (parse t) = []) :
    SoundProgram (parse t) := by
  have hregions : ∀ {ts : List Token}, ts ∈ regionsOf (tokenize t) →
      (∃ tree, Reads ts tree) ∧ Lexed ts := fun hts => reads_of_mem_regionsOf h hts
  rw [parse, parseTokens]
  split
  · next run hcut =>
      rw [regionsOf, hcut] at hregions
      obtain ⟨⟨tree, htree⟩, hlexed⟩ := hregions List.mem_cons_self
      exact .region htree hlexed
  · next run sections hne hcut =>
      rw [regionsOf, hcut] at hregions
      refine .sections hne (hregions List.mem_cons_self) ?_
      intro s hs
      exact hregions (List.mem_cons_of_mem _ (List.mem_map_of_mem hs))

namespace SoundProgram

variable {t : Tree}

theorem isDocument (h : SoundProgram t) : t.IsDocument := by
  cases h with
  | @region ts o h hlexed => exact isDocument_region ts
  | sections hne hrun hbodies => exact isDocument_sections hne hrun.2.lexeme

/-- The bodies of the queries are read without errors. -/
theorem soundRegion_of_mem_bodyRegions (h : SoundProgram t) {region : Tree}
    (hregion : region ∈ t.bodyRegions) : SoundRegion region := by
  cases h with
  | region h hlexed =>
      rw [eq_of_mem_bodyRegions hregion]
      exact .intro rfl h hlexed
  | sections hne hrun hbodies =>
      rw [bodyRegions_of_sections hne] at hregion
      obtain ⟨s, hs, rfl⟩ := List.mem_map.1 hregion
      obtain ⟨⟨tree, htree⟩, hlexed⟩ := hbodies s hs
      obtain ⟨tree', htree'⟩ := htree.exists_dropWhile
      exact .intro rfl htree' hlexed.dropWhile

/-- The domain is read without errors, and is not blank. -/
theorem soundRegion_of_mem_domain? (h : SoundProgram t) {region : Tree}
    (hregion : region ∈ t.domain?) : SoundRegion region ∧ region.trimmedText ≠ [] := by
  refine ⟨?_, h.isDocument.trimmedText_domain region hregion⟩
  cases h with
  | region h hlexed =>
      rw [domain?_regionTrees] at hregion
      cases hregion
  | sections hne hrun hbodies =>
      obtain ⟨⟨tree, htree⟩, hlexed⟩ := hrun
      obtain ⟨tree', htree'⟩ := htree.exists_dropWhile
      rw [(eq_of_mem_domain? hregion).2]
      exact .intro rfl htree' hlexed.dropWhile

theorem soundRegion_of_mem_regions (h : SoundProgram t) {region : Tree}
    (hregion : region ∈ t.regions) : SoundRegion region := by
  rcases List.mem_append.1 hregion with hdomain | hbody
  · exact (h.soundRegion_of_mem_domain? (Option.mem_toList.1 hdomain)).1
  · exact h.soundRegion_of_mem_bodyRegions hbody

end SoundProgram

/-! ## The segments of a document -/

theorem forall₂_toList {α β : Type} {R : α → β → Prop} {a : Option α} {b : Option β}
    (h : Option.Rel R a b) : List.Forall₂ R a.toList b.toList := by
  cases h with
  | none => exact .nil
  | some h => exact .cons h .nil

/-- The bodies of queries, each with its place, become segments one by one. -/
theorem forall₂_ofNode {fs : List Focus} (h : ∀ f ∈ fs, f.tree.queryBody?.isSome) :
    List.Forall₂ IsSegment ((fs.map Focus.tree).filterMap Tree.queryBody?)
      ((fs.map Query.ofNode).map Query.body) := by
  induction fs with
  | nil => exact .nil
  | cons f fs ih =>
      have hbody : (f.child? .queryBody).map Focus.tree = f.tree.queryBody? :=
        f.map_tree_child? .queryBody
      cases hchild : f.child? .queryBody with
      | none =>
          have hsome := h f List.mem_cons_self
          rw [← hbody, hchild] at hsome
          cases hsome
      | some g =>
          rw [hchild] at hbody
          rw [List.map_cons, List.filterMap_cons_some hbody.symm]
          have hsegment : (Query.ofNode f).body = .ofRegion g := by
            rw [Query.ofNode, hchild]
            rfl
          rw [List.map_cons, List.map_cons, hsegment]
          exact .cons (isSegment_ofRegion g) (ih fun f' hf' => h f' (List.mem_cons_of_mem f hf'))

namespace QueryDocument

variable {t : Tree}

/-- A program without headers has no domain, and one query unless it is blank. -/
theorem ofTree_of_queries_eq_nil (hk : t.kind? = some .program) (h : t.queries = []) :
    ofTree t = ⟨none, if t.trimmedText.isEmpty then [] else [⟨none, .ofRegion ⟨t, 0, []⟩⟩]⟩ := by
  rw [ofTree, hk, h]
  rfl

/-- A program with headers has a query for each of them. -/
theorem ofTree_of_queries_ne_nil (hk : t.kind? = some .program) (h : t.queries ≠ []) :
    ofTree t
      = ⟨((Focus.child? .domain ⟨t, 0, []⟩).map Segment.ofRegion).filter fun d => !d.text.isEmpty,
        ((Focus.children ⟨t, 0, []⟩).filter fun c => c.tree.isKind .query).map Query.ofNode⟩ := by
  have hne : t.queries.isEmpty = false := by simpa using h
  rw [ofTree, hk, hne]
  rfl

/-- **The domain of a program is a segment of its document.** -/
theorem rel_domain_of_isDocument (h : t.IsDocument) :
    Option.Rel IsSegment t.domain? (ofTree t).domain := by
  by_cases hqueries : t.queries = []
  · rw [ofTree_of_queries_eq_nil h.isProgram hqueries, h.domain?_eq_none hqueries]
    exact .none
  · have hdomain : (Focus.child? .domain ⟨t, 0, []⟩).map Focus.tree = t.domain? :=
      Focus.map_tree_child? ⟨t, 0, []⟩ .domain
    rw [ofTree_of_queries_ne_nil h.isProgram hqueries]
    cases hchild : Focus.child? .domain ⟨t, 0, []⟩ with
    | none =>
        rw [hchild] at hdomain
        rw [← hdomain]
        exact .none
    | some f =>
        rw [hchild] at hdomain
        have hblank : (Segment.ofRegion f).text ≠ [] := h.trimmedText_domain f.tree hdomain.symm
        have hkeep : ((some (Segment.ofRegion f)).filter fun d => !d.text.isEmpty)
            = some (.ofRegion f) := by
          rw [Option.filter_some, if_pos]
          simpa using hblank
        rw [← hdomain, Option.map_some, Option.map_some, hkeep]
        exact .some (isSegment_ofRegion f)

/-- **The bodies of the queries of a program are segments of its document.** -/
theorem forall₂_bodies_of_isDocument (h : t.IsDocument) :
    List.Forall₂ IsSegment t.bodyRegions ((ofTree t).queries.map Query.body) := by
  by_cases hqueries : t.queries = []
  · rw [ofTree_of_queries_eq_nil h.isProgram hqueries, Tree.bodyRegions, hqueries,
      if_pos List.isEmpty_nil]
    split
    · exact .nil
    · exact .cons (isSegment_ofRegion ⟨t, 0, []⟩) .nil
  · have htrees : ((Focus.children ⟨t, 0, []⟩).filter fun c => c.tree.isKind .query).map Focus.tree
        = t.queries := Focus.map_tree_queries ⟨t, 0, []⟩
    have hne : ¬ t.queries.isEmpty := by simpa using hqueries
    rw [ofTree_of_queries_ne_nil h.isProgram hqueries, Tree.bodyRegions, if_neg hne, ← htrees]
    refine forall₂_ofNode fun f hf => h.isSome_queryBody? f.tree ?_
    rw [← htrees]
    exact List.mem_map_of_mem hf

theorem rel_domain (h : SoundProgram t) : Option.Rel IsSegment t.domain? (ofTree t).domain :=
  rel_domain_of_isDocument h.isDocument

theorem forall₂_bodies (h : SoundProgram t) :
    List.Forall₂ IsSegment t.bodyRegions ((ofTree t).queries.map Query.body) :=
  forall₂_bodies_of_isDocument h.isDocument

/-- The segments of the document of a text without errors are those of its regions. -/
theorem forall₂_segments (h : SoundProgram t) :
    List.Forall₂ IsSegment t.regions (ofTree t).segments :=
  List.rel_append (forall₂_toList (rel_domain h)) (forall₂_bodies h)

end QueryDocument

end CardQuery
