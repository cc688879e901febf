import CardQuery.Proofs.Parse.Lines
import CardQuery.Proofs.Query.Segment
import CardQuery.Proofs.Query.Strip

/-!
# The filter of a segment

The filter of a segment is the text of its region without the settings. It is read without errors,
as one query without a name and without settings, and asks what is left of the region when its
setting tags are pruned. Taking the settings out of it once more changes nothing.

Main statement: this holds of every segment of a text without errors
(`QueryDocument.filters_of_segments`).
-/

set_option autoImplicit false

namespace CardQuery

/-! ## Taking the settings out of a region -/

/-- The tokens that are kept of a child of a region. -/
def keptInRegion (c : Tree) : List (Option Token) :=
  (if c.isExpression then c.strip else .ofTokens c.tokens).kept

theorem kept_stripRegion (k : NodeKind) (cs : List Tree) :
    (Tree.node k cs).stripRegion.kept = cs.flatMap keptInRegion := by
  simp only [Tree.stripRegion, Stripped.concat, Tree.children, List.flatMap_map]
  rfl

theorem keptInRegion_blank (t : Token) : keptInRegion (.token t) = [some t] := by
  simp [keptInRegion, Stripped.ofTokens]

/-- **What is left of a region is read as what pruning leaves of it.** -/
theorem Reads.exists_residue {ts : List Token} {o : Option Tree} (h : Reads ts o)
    (hlexed : Lexed ts) (k : NodeKind) :
    ∃ us is s, Remainder us is ∧ Plain is ∧ Reads us s ∧
      tokensText us = residualText (Tree.node k (regionTrees ts)).stripRegion.kept ∧
      s.bind Tree.lower = (Tree.node k (regionTrees ts)).pruneRegion.lowerRegion := by
  have hfaultless := faultlessEach_regionTrees_iff.2 ⟨o, h⟩
  have hyield : Tree.yieldEach (regionTrees ts) = items ts :=
    yieldEach_joined (proper_items ts) hfaultless
  have hsqueeze := h.squeezeEach_regionTrees
  rw [Tree.squeezeEach_eq_map] at hsqueeze
  -- once it is known which solid items are kept, the rest follows from the cuts alone
  have hphrase : ∀ {js : List Item}, CutsEach keptInRegion (regionTrees ts) js →
      ∃ us is, Remainder us is ∧ Plain is ∧ solid is = js ∧
        tokensText us = residualText (Tree.node k (regionTrees ts)).stripRegion.kept := by
    intro js hcuts
    have hall := hcuts.cuts
    rw [hyield] at hall
    obtain ⟨us, is, hrem, htext, hsolid, hplain⟩ := hall.exists_phrase h.spells hlexed
    exact ⟨us, is, hrem, hplain, hsolid, by rw [htext, kept_stripRegion]⟩
  cases o with
  | none =>
      have hfilter : ((regionTrees ts).filter fun c => !c.isBlank) = [] := by simpa using hsqueeze
      have hexpr : (regionTrees ts).filter Tree.isExpression = (none : Option Tree).toList := by
        rw [Tree.filter_isExpression_eq, hfilter]
        rfl
      have heach : CutsEach keptInRegion (regionTrees ts) [] := by
        refine .of_filter (fun t _ => keptInRegion_blank t) ?_
        rw [hfilter]
        exact .nil
      obtain ⟨us, is, hrem, hplain, hsolid, htext⟩ := hphrase heach
      exact ⟨us, is, none, hrem, hplain, ⟨is, hrem.spells, hsolid⟩, htext,
        (Tree.lowerRegion_pruneRegion hexpr).symm⟩
  | some s =>
      obtain ⟨t, hfilter, ht⟩ := List.map_eq_singleton_iff.1 hsqueeze
      have htexpr : t.isExpression = true := by
        rw [← Tree.isExpression_squeeze, ht, h.shape.isExpression]
      have hexpr : (regionTrees ts).filter Tree.isExpression = (some t).toList := by
        rw [Tree.filter_isExpression_eq, hfilter]
        simp [htexpr]
      have hlower := Tree.lowerRegion_pruneRegion (k := k) hexpr
      have heach : ∀ {js : List Item}, Cuts t.yield t.strip.kept js →
          CutsEach keptInRegion (regionTrees ts) js := by
        intro js hcuts
        refine .of_filter (fun t _ => keptInRegion_blank t) ?_
        rw [hfilter]
        have hkept : keptInRegion t = t.strip.kept := by simp [keptInRegion, htexpr]
        rw [← hkept] at hcuts
        simpa using CutsEach.cons hcuts .nil
      -- the expression consists of settings, or leaves one of the same shape
      rcases h.shape.stripsTo ht with ⟨-, hcuts, hprune⟩ | ⟨-, s', hs', hcuts, hs'lower⟩
      · obtain ⟨us, is, hrem, hplain, hsolid, htext⟩ := hphrase (heach hcuts)
        refine ⟨us, is, none, hrem, hplain, ⟨is, hrem.spells, hsolid⟩, htext, ?_⟩
        rw [hlower, Option.bind_some, hprune]
      · obtain ⟨us, is, hrem, hplain, hsolid, htext⟩ := hphrase (heach hcuts)
        refine ⟨us, is, some s', hrem, hplain, ⟨is, hrem.spells, hs', hsolid⟩, htext, ?_⟩
        rw [hlower, Option.bind_some, Option.bind_some, hs'lower]

/-! ## A text without settings -/

theorem Stripped.concat_ofTokens (cs : List Tree) :
    Stripped.concat (cs.map fun c => .ofTokens c.tokens) = .ofTokens (Tree.tokensOf cs) := by
  induction cs with
  | nil => simp [Stripped.concat, Stripped.ofTokens]
  | cons c cs ih =>
      simp only [Stripped.concat, Stripped.ofTokens, Stripped.mk.injEq] at ih ⊢
      simp [ih.1, ih.2.1]

/-- No keyword goes when no operand does. -/
theorem Stripped.binary_ofTokens (cs : List Tree) (op : Connective) :
    Stripped.binary (cs.map fun c => (c, .ofTokens c.tokens)) op
      = .ofTokens (Tree.tokensOf cs) := by
  have hoperands : ((cs.map fun c => (c, Stripped.ofTokens c.tokens)).filter
        fun p => p.1.isExpression).map (fun p => p.2.onlySettings)
      = (cs.filter Tree.isExpression).map fun _ => false := by
    rw [List.filter_map, List.map_map]
    rfl
  have hconcat := Stripped.concat_ofTokens cs
  have hout : ((cs.filter Tree.isExpression).map fun _ => false)[0]? ≠ some true := by
    simp [List.getElem?_replicate]
  have hany : ((cs.filter Tree.isExpression).map fun _ => false).any id = false := by simp
  rw [Stripped.binary, hoperands]
  simp only [hany, hout, Bool.false_eq_true, and_false, false_and, if_false, List.map_map,
    Function.comp_def, hconcat, decide_false]
  rfl

namespace Tree

mutual

/-- Nothing is taken out of a tree without settings. -/
theorem strip_of_plain (t : Tree) (h : Plain t.yield) : t.strip = .ofTokens t.tokens := by
  cases t with
  | token t => simp
  | node k cs =>
      have ih := strip_of_plainEach cs
      cases k with
      | tag =>
          have hset : (node .tag cs).isSetting = false :=
            h (node .tag cs) (by simp [yield]) rfl
          rw [strip_tag hset, tokens_node]
      | clause =>
          rw [yield_clause] at h
          -- no expression in the clause is cut out, so neither is the clause
          have hkeep : (!(cs.filter isExpression).isEmpty
              && (cs.filter isExpression).all (fun c => c.strip.onlySettings)) = false := by
            rw [Bool.and_eq_false_imp]
            intro hne
            obtain ⟨c, hc⟩ :=
              List.exists_mem_of_ne_nil (cs.filter isExpression) (by simpa using hne)
            rw [List.all_eq_false]
            refine ⟨c, hc, ?_⟩
            rw [ih h c (List.mem_filter.1 hc).1]
            simp [Stripped.ofTokens]
          rw [strip_clause, hkeep, List.map_congr_left fun c hc => ih h c hc,
            Stripped.concat_ofTokens]
          rfl
      | binary op =>
          rw [yield_binary] at h
          have hmap : cs.map (fun c => (c, c.strip)) = cs.map fun c => (c, .ofTokens c.tokens) :=
            List.map_congr_left fun c hc => by rw [ih h c hc]
          simp only [strip, stripEach_eq_map, hmap]
          exact Stripped.binary_ofTokens cs op
      | _ => simp [strip]

theorem strip_of_plainEach (cs : List Tree) (h : Plain (yieldEach cs)) :
    ∀ c ∈ cs, c.strip = .ofTokens c.tokens := by
  cases cs with
  | nil => simp
  | cons c cs =>
      rw [yieldEach_cons] at h
      have hc := strip_of_plain c (h.of_subset (List.subset_append_left _ _))
      have hcs := strip_of_plainEach cs (h.of_subset (List.subset_append_right _ _))
      exact List.forall_mem_cons.2 ⟨hc, hcs⟩

end

/-- Nothing is taken out of a region without settings. -/
theorem stripRegion_of_plain {k : NodeKind} {cs : List Tree} (h : Plain (yieldEach cs)) :
    (node k cs).stripRegion = .ofTokens (tokensOf cs) := by
  have hmap : cs.map (fun c => if c.isExpression then c.strip else .ofTokens c.tokens)
      = cs.map fun c => .ofTokens c.tokens := by
    refine List.map_congr_left fun c hc => ?_
    rw [strip_of_plainEach cs h c hc, ite_self]
  rw [stripRegion, children, hmap, Stripped.concat_ofTokens]

end Tree

theorem piecesOf_map_some (ts : List Token) : piecesOf (ts.map some) = [ts] := by
  have hnil : piecesOf [] = [[]] := rfl
  simpa using piecesOf_append hnil ts

/-- What is left without a cut is the text itself, trimmed. -/
theorem residualText_map_some (ts : List Token) :
    residualText (ts.map some) = (tokensText ts).trim := by
  rw [residualText, piecesOf_map_some]
  cases htrim : (tokensText ts).trim with
  | nil => simp [htrim]
  | cons c cs => simp [htrim, appendPiece]

/-! ## The filter of a region -/

/-- The text `r` is read without errors and without names, and asks what `o` asks. -/
structure Asks (r : Text) (o : Option Expr) : Prop where
  noErrors : syntaxErrors (parse r) = []
  noNames : (parse r).queries = []
  normalized_eq : (parse r).expr?.map Expr.normalized = o.map Expr.normalized

/-- The text `r` asks what is left of `region` without its settings. There are no settings in it,
and its own filter is the text again. -/
structure FilterOf (region : Tree) (r : Text) : Prop extends Asks r region.pruneRegion.expr? where
  noSettings : ∀ s ∈ (QueryDocument.ofTree (parse r)).segments, s.settings = .empty
  ownFilter : r ≠ [] →
    ∃ body, QueryDocument.ofTree (parse r) = ⟨none, [⟨none, body⟩]⟩ ∧ body.filter = r

namespace Remainder

variable {ts : List Token} {is : List Item}

theorem trim_tokensText (h : Remainder ts is) : (tokensText ts).trim = tokensText ts := by
  rcases h with ⟨rfl, -⟩ | h
  · rfl
  · exact CardQuery.trim_tokensText h.lexed h.first h.last

/-- What is left is read as one region. -/
theorem parse_tokensText (h : Remainder ts is) :
    parse (tokensText ts) = .node .program (regionTrees ts) := by
  rw [parse, h.lexed.tokenize_tokensText, parseTokens, cutAtHeaders_of_held h.spells.held]

/-- What is left is read without errors, and asks what its expression asks. -/
theorem asks (h : Remainder ts is) {t : Option Tree} (ht : Reads ts t) {o : Option Expr}
    (ho : (t.bind Tree.lower).map Expr.normalized = o.map Expr.normalized) :
    Asks (tokensText ts) o := by
  have hfaultless := faultlessEach_regionTrees_iff.2 ⟨t, ht⟩
  have hmeaning : (Tree.node .program (regionTrees ts)).expr? = t.bind Tree.lower := ht.meaning
  constructor
  all_goals rw [h.parse_tokensText]
  · rw [syntaxErrors_eq_nil_iff, Tree.faultless_of_isRegion rfl, hfaultless]
  · exact ht.queries_eq_nil .program
  · rw [hmeaning, ho]

/-- What is left without settings is its own filter. -/
theorem filterOf (h : Remainder ts is) (hplain : Plain is) {t : Option Tree} (ht : Reads ts t)
    {region : Tree} (hasks : t.bind Tree.lower = region.pruneRegion.expr?) :
    FilterOf region (tokensText ts) := by
  have hyield : Tree.yieldEach (regionTrees ts) = is := by
    rw [← h.spells.items_eq]
    exact yieldEach_joined (proper_items ts) (faultlessEach_regionTrees_iff.2 ⟨t, ht⟩)
  let root := Tree.node .program (regionTrees ts)
  have hstrip : root.stripRegion = .ofTokens root.tokens :=
    Tree.stripRegion_of_plain (by rwa [hyield])
  have hsettings : (Segment.ofRegion ⟨root, 0, []⟩).settings = .empty := by
    rw [Segment.ofRegion, hstrip]
    rfl
  have hfilter : (Segment.ofRegion ⟨root, 0, []⟩).filter = tokensText ts := by
    calc residualText root.stripRegion.kept
        = residualText (root.tokens.map some) := by rw [hstrip, Stripped.ofTokens]
      _ = (tokensText root.tokens).trim := residualText_map_some root.tokens
      _ = (tokensText ts).trim := by rw [Tree.tokens_node, tokensText_regionTrees]
      _ = tokensText ts := h.trim_tokensText
  have hdocument := QueryDocument.ofTree_of_queries_eq_nil (t := root) rfl
    (ht.queries_eq_nil .program)
  refine ⟨h.asks ht (by rw [hasks]), ?_, ?_⟩
  all_goals rw [h.parse_tokensText]
  · intro s hs
    rw [QueryDocument.segments, hdocument] at hs
    split at hs
    · cases hs
    · obtain rfl := List.mem_singleton.1 hs
      exact hsettings
  · intro hne
    have hphrase : Phrase ts is := by
      rcases h with ⟨rfl, -⟩ | h
      · exact absurd rfl hne
      · exact h
    have htext : root.trimmedText.isEmpty = false := by
      have hfirst : ∀ t ∈ ts.head?, t.isBlank = false := fun t ht => by
        simpa [Token.isBlank] using hphrase.first t ht
      simpa using trimmedText_ne_nil hphrase.lexed.lexeme hphrase.ne_nil hfirst .program
    refine ⟨.ofRegion ⟨root, 0, []⟩, ?_, hfilter⟩
    rw [hdocument, htext]
    rfl

end Remainder

/-- What pruning leaves of a region is asked as by any region. -/
theorem expr?_pruneRegion {k : NodeKind} (hk : k.isRegion = true) (cs : List Tree) :
    (Tree.node k cs).pruneRegion.expr? = (Tree.node k cs).pruneRegion.lowerRegion := by
  cases k <;> first | rfl | cases hk

/-- What is left of the region of a segment is read from its filter. -/
theorem IsSegment.exists_residue {region : Tree} {s : Segment} (h : IsSegment region s)
    (hregion : SoundRegion region) :
    ∃ us is t, Remainder us is ∧ Plain is ∧ Reads us t ∧ tokensText us = s.filter ∧
      t.bind Tree.lower = region.pruneRegion.expr? := by
  cases hregion with
  | @intro k ts o hk hreads hlexed =>
      rw [h.filter_eq, expr?_pruneRegion hk]
      exact hreads.exists_residue hlexed k

/-- **The filter of every segment asks what its region asks without the settings.** The segments
are those of the domain and of the queries, in order. -/
theorem QueryDocument.filters_of_segments (t : Text) (h : syntaxErrors (parse t) = []) :
    List.Forall₂ (fun region s => FilterOf region s.filter) (parse t).regions
      (ofTree (parse t)).segments := by
  have hprogram := soundProgram_parse h
  have hsound : ∀ region ∈ (parse t).regions, SoundRegion region :=
    fun region hregion => hprogram.soundRegion_of_mem_regions hregion
  have hboth := (List.forall₂_and_left _ _).2 ⟨hsound, forall₂_segments hprogram⟩
  refine hboth.imp fun region s ⟨hregion, hs⟩ => ?_
  obtain ⟨us, is, tree, hrem, hplain, hreads, htext, hasks⟩ := hs.exists_residue hregion
  rw [← htext]
  exact hrem.filterOf hplain hreads hasks

/-- A setting beside a keyword inside parentheses, and one in the domain. -/
theorem QueryDocument.filters_of_segments_keyword :
    syntaxErrors (parse "t:elf order:cmc\nq: (dir:asc or a) -b\n".toList) = [] ∧
      (ofTree (parse "t:elf order:cmc\nq: (dir:asc or a) -b\n".toList)).segments.map Segment.filter
        = ["t:elf".toList, "(a) -b".toList] ∧
      List.Forall₂ (fun region s => FilterOf region s.filter)
        (parse "t:elf order:cmc\nq: (dir:asc or a) -b\n".toList).regions
        (ofTree (parse "t:elf order:cmc\nq: (dir:asc or a) -b\n".toList)).segments :=
  have h : syntaxErrors (parse "t:elf order:cmc\nq: (dir:asc or a) -b\n".toList) = [] := by
    decide +kernel
  ⟨h, by decide +kernel, QueryDocument.filters_of_segments _ h⟩

end CardQuery
