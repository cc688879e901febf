import CardQuery.Editor.Diagnostic
import CardQuery.Proofs.Editor.Respelling
import CardQuery.Proofs.Parse.Respelling
import CardQuery.Proofs.Query.Respelling
import CardQuery.Proofs.Token.LetterCase
import CardQuery.Query.Document

/-!
# Letter case

Query text means the same in small and in capital letters. What is read of a text in small letters
is what is read of the text, in small letters: the tree, what is wrong with it, how it is shown,
and the queries in it. So two texts that differ in letter case only differ in what is spelled out
and in nothing else.

Main statement: `parse_ignores_letter_case`.
-/

set_option autoImplicit false

namespace CardQuery

theorem keepsWidth_lower : Respelling.lower.KeepsWidth :=
  fun _ t => t.width_asciiLower

/-- A tree with its tokens in small letters. -/
abbrev Tree.asciiLower (t : Tree) : Tree :=
  t.respell .lower

/-- The tree of a text in small letters is its tree in small letters. -/
theorem parse_asciiLower (t : Text) : parse t.asciiLower = (parse t).asciiLower := by
  rw [parse, parse, tokenize_asciiLower, parseTokens_respell]

theorem Tree.text_asciiLower (t : Tree) : t.asciiLower.text = t.text.asciiLower := by
  rw [text, tokens_respell]
  exact tokensText_map_asciiLower t.tokens

/-! ## Values -/

theorem unescape_asciiLower (t : Text) : unescape t.asciiLower = (unescape t).asciiLower := by
  fun_induction unescape t with
  | case1 => rfl
  | case2 c cs ih =>
      show c.toLower :: unescape (Text.asciiLower cs) = _
      rw [ih]
      rfl
  | case3 cs hlast ih =>
      -- a backslash that nothing follows
      cases cs with
      | nil => rfl
      | cons c cs => exact (hlast c cs rfl rfl).elim
  | case4 c cs hescape hplain ih =>
      have hsmall : c.toLower ≠ '\\' := fun h => hplain ((toLower_eq_backslash_iff c).1 h)
      show unescape (c.toLower :: Text.asciiLower cs) = c.toLower :: (unescape cs).asciiLower
      rw [← ih, unescape.eq_3 _ _ fun _ _ h _ => hsmall h, if_neg hsmall]

theorem dropOpening_asciiLower (kind : LiteralKind) (t : Text) :
    dropOpening kind.mark t.asciiLower = (dropOpening kind.mark t).asciiLower := by
  cases t with
  | nil => simp [dropOpening, Text.asciiLower]
  | cons c cs =>
      simp only [dropOpening, Text.asciiLower, List.map_cons, List.head?_cons, Option.some.injEq,
        toLower_eq_mark_iff]
      split <;> rfl

theorem isPrefixOf_asciiLower {marks : Text} (h : ∀ d ∈ marks, d ∈ markChars) (t : Text) :
    marks.isPrefixOf t.asciiLower = marks.isPrefixOf t := by
  induction marks generalizing t with
  | nil => simp
  | cons d marks ih =>
      obtain ⟨hd, hmarks⟩ := List.forall_mem_cons.1 h
      cases t with
      | nil => rfl
      | cons c cs =>
          have hhead : (d == c.toLower) = (d == c) := by
            rw [Bool.eq_iff_iff, beq_iff_eq, beq_iff_eq, eq_comm, toLower_eq_iff hd, eq_comm]
          show (d == c.toLower && marks.isPrefixOf (Text.asciiLower cs)) = _
          rw [hhead, ih hmarks, List.isPrefixOf]

theorem stringContents_asciiLower (t : Text) :
    stringContents t.asciiLower = (stringContents t).asciiLower := by
  have hopening : dropOpening '"' t.asciiLower = (dropOpening '"' t).asciiLower :=
    dropOpening_asciiLower .string t
  simp only [stringContents, hopening]
  generalize dropOpening '"' t = inner
  have hlast : inner.asciiLower.getLast? = some '"' ↔ inner.getLast? = some '"' := by
    have hquote : ∀ c : Char, c.toLower = '"' ↔ c = '"' := toLower_eq_iff (by decide)
    simp [Text.asciiLower, hquote]
  have hescaped : ['\\', '"'].isSuffixOf inner.asciiLower = ['\\', '"'].isSuffixOf inner := by
    have hmarks : ∀ d ∈ ['"', '\\'], d ∈ markChars := by simp [markChars]
    have hreverse := isPrefixOf_asciiLower hmarks inner.reverse
    simpa [List.isSuffixOf, Text.asciiLower] using hreverse
  simp only [hlast, hescaped]
  split
  · rw [← unescape_asciiLower, Text.asciiLower, Text.asciiLower, List.map_dropLast]
  · exact unescape_asciiLower inner

theorem Tree.unquoted_asciiLower (t : Tree) :
    t.asciiLower.unquoted = t.unquoted.asciiLower := by
  unfold unquoted
  rw [kind?_respell, text_asciiLower]
  split
  · exact stringContents_asciiLower t.text
  · rfl

/-! ## Settings -/

theorem argumentKind?_asciiLower (name : Text) :
    argumentKind? name.asciiLower = argumentKind? name := by
  rw [argumentKind?, argumentKind?, aliasGroup?_congr name.asciiLower_asciiLower]

theorem settingOf?_asciiLower (t : Tree) :
    settingOf? t.asciiLower = (settingOf? t).map (Prod.map id Text.asciiLower) := by
  unfold settingOf? Tree.sign? Tree.argument? Tree.operator?
  rw [Tree.child?_respell, Tree.child?_respell, Tree.child?_respell, Tree.value?_respell]
  cases t.child? .sign with
  | some sign => rfl
  | none =>
      cases t.child? .argument with
      | none => rfl
      | some a =>
          cases t.child? .operator with
          | none => rfl
          | some op =>
              cases t.value? with
              | none => rfl
              | some v =>
                  have hsetting : setting? a.asciiLower.text = setting? a.text := by
                    rw [setting?, a.text_asciiLower, argumentKind?_asciiLower, setting?]
                  have hempty : v.unquoted.asciiLower = [] ↔ v.unquoted = [] :=
                    List.map_eq_nil_iff
                  simp only [Option.map_none, Option.map_some, hsetting, v.unquoted_asciiLower,
                    op.comparisonKind?_respell, Ne, hempty]
                  split
                  · split <;> rfl
                  · rfl

/-! ## Diagnostics -/

/-- A finding with the names in it in small letters. -/
def Finding.asciiLower : Finding → Finding
  | .syntaxError problem => .syntaxError problem
  | .unknownArgument name => .unknownArgument name.asciiLower
  | .comparisonNotAllowed op name allowed =>
    .comparisonNotAllowed op.asciiLower name.asciiLower allowed

theorem Finding.severity_asciiLower (f : Finding) : f.asciiLower.severity = f.severity := by
  cases f <;> rfl

/-- A diagnostic with the names in it in small letters. -/
def Diagnostic.asciiLower (d : Diagnostic) : Diagnostic :=
  ⟨d.finding.asciiLower, d.span⟩

theorem Focus.tagDiagnostic?_asciiLower (f : Focus) :
    (f.respell .lower).tagDiagnostic? = f.tagDiagnostic?.map Diagnostic.asciiLower := by
  have htext : ∀ g : Focus, (g.respell .lower).tree.text = g.tree.text.asciiLower :=
    fun g => g.tree.text_asciiLower
  have hop : ∀ g : Focus, (g.respell .lower).tree.comparisonKind? = g.tree.comparisonKind? :=
    fun g => g.tree.comparisonKind?_respell .lower
  unfold tagDiagnostic?
  rw [child?_respell keepsWidth_lower, child?_respell keepsWidth_lower]
  simp only [respell, Tree.isKind_respell]
  split
  · cases f.child? .argument with
    | none => rfl
    | some a =>
        cases f.child? .operator with
        | none => rfl
        | some op =>
            simp only [Option.map_some, Option.bind_eq_bind, Option.bind_some, htext, hop,
              argumentKind?_asciiLower, span_respell keepsWidth_lower]
            cases argumentKind? a.tree.text with
            | none => rfl
            | some kind =>
                cases op.tree.comparisonKind? with
                | none => rfl
                | some sort =>
                    simp only [Option.bind_some]
                    split <;> rfl
  · rfl

theorem Tree.diagnostics_asciiLower (t : Tree) :
    t.asciiLower.diagnostics = t.diagnostics.map Diagnostic.asciiLower := by
  have htags : t.asciiLower.tagDiagnostics = t.tagDiagnostics.map Diagnostic.asciiLower := by
    rw [tagDiagnostics, nodes_respell keepsWidth_lower, List.filterMap_map, tagDiagnostics,
      List.map_filterMap]
    exact congrArg (t.nodes.filterMap ·) (funext Focus.tagDiagnostic?_asciiLower)
  have hsort : ∀ ds : List Diagnostic,
      (ds.map Diagnostic.asciiLower).mergeSort (fun a b => a.span.start ≤ b.span.start)
        = (ds.mergeSort fun a b => a.span.start ≤ b.span.start).map Diagnostic.asciiLower :=
    fun ds => (List.map_mergeSort (f := Diagnostic.asciiLower) fun _ _ _ _ => rfl).symm
  simp only [diagnostics, syntaxErrors_respell keepsWidth_lower, htags]
  rw [← hsort, List.map_append, List.map_map]
  rfl

/-! ## Query documents -/

namespace Text

theorem isEmpty_asciiLower (t : Text) : t.asciiLower.isEmpty = t.isEmpty :=
  List.isEmpty_map

theorem trim_asciiLower (t : Text) : t.asciiLower.trim = t.trim.asciiLower := by
  simp only [trim, trimLeft, trimRight, asciiLower, List.dropWhile_map, ← List.map_reverse,
    Function.comp_def, isBlank_toLower]

end Text

theorem appendPiece_asciiLower (out piece : Text) :
    appendPiece out.asciiLower piece.asciiLower = (appendPiece out piece).asciiLower := by
  have hopening : out.asciiLower.getLast? = some '(' ↔ out.getLast? = some '(' := by
    simp [Text.asciiLower, toLower_eq_iff (d := '(') (by decide)]
  have hclosing : piece.asciiLower.head? = some ')' ↔ piece.head? = some ')' := by
    simp [Text.asciiLower, toLower_eq_iff (d := ')') (by decide)]
  simp only [appendPiece, out.isEmpty_asciiLower, hopening, hclosing]
  split
  · rfl
  · split <;> simp [Text.asciiLower]

theorem residualText_asciiLower (kept : List (Option Token)) :
    residualText (kept.map (Option.map Token.asciiLower)) = (residualText kept).asciiLower := by
  have hfold : ∀ (pieces : List Text) (out : Text),
      (pieces.map Text.asciiLower).foldl appendPiece out.asciiLower
        = (pieces.foldl appendPiece out).asciiLower := by
    intro pieces out
    induction pieces generalizing out with
    | nil => rfl
    | cons piece pieces ih =>
        rw [List.map_cons, List.foldl_cons, appendPiece_asciiLower, ih, List.foldl_cons]
  have hpieces : (piecesOf (kept.map (Option.map Token.asciiLower))).map
        (fun ts => (tokensText ts).trim)
      = ((piecesOf kept).map fun ts => (tokensText ts).trim).map Text.asciiLower := by
    rw [piecesOf_map, List.map_map, List.map_map]
    refine List.map_congr_left fun ts _ => ?_
    rw [Function.comp_apply, tokensText_map_asciiLower, Text.trim_asciiLower]
    rfl
  simp only [residualText, hpieces, List.filter_map, Function.comp_def, Text.isEmpty_asciiLower]
  exact hfold _ []

/-- A segment with its texts in small letters. -/
def Segment.asciiLower (s : Segment) : Segment :=
  ⟨s.text.asciiLower, s.filter.asciiLower, s.start, s.stop, s.settings.map Text.asciiLower⟩

/-- A query name in small letters. -/
def QueryName.asciiLower (n : QueryName) : QueryName :=
  ⟨n.text.asciiLower, n.start, n.stop⟩

/-- A query with its texts in small letters. -/
def Query.asciiLower (q : Query) : Query :=
  ⟨q.name.map QueryName.asciiLower, q.body.asciiLower⟩

/-- A document with its texts in small letters. -/
def QueryDocument.asciiLower (d : QueryDocument) : QueryDocument :=
  ⟨d.domain.map Segment.asciiLower, d.queries.map Query.asciiLower⟩

theorem keepsSetting_lower (k : NodeKind) (cs : List Tree) :
    k.KeepsSetting .lower Text.asciiLower cs := by
  intro _
  rw [← settingOf?_asciiLower, Tree.asciiLower, Tree.respell_node]

theorem Segment.ofRegion_asciiLower (region : Focus) :
    ofRegion (region.respell .lower) = (ofRegion region).asciiLower := by
  have hstrip := Tree.stripRegion_respell .lower Text.asciiLower
    (region.tree.all_of_forall keepsSetting_lower)
  have htext : tokensText (trimTokens (region.respell .lower).tree.tokens)
      = (tokensText (trimTokens region.tree.tokens)).asciiLower := by
    rw [Focus.respell, Tree.tokens_respell, Respelling.trimTokens_map, tokensText_map_asciiLower]
  have hfilter : residualText (region.respell .lower).tree.stripRegion.kept
      = (residualText region.tree.stripRegion.kept).asciiLower := by
    rw [Focus.respell, hstrip, ← residualText_asciiLower]
    rfl
  have hsettings : QuerySettings.ofList (region.respell .lower).tree.stripRegion.settings
      = (QuerySettings.ofList region.tree.stripRegion.settings).map Text.asciiLower := by
    rw [Focus.respell, hstrip, ← QuerySettings.ofList_map]
    rfl
  simp only [ofRegion, Focus.trimmedSpan_respell keepsWidth_lower, htext, hfilter, hsettings]
  rfl

theorem Query.ofNode_asciiLower (query : Focus) :
    ofNode (query.respell .lower) = (ofNode query).asciiLower := by
  have hname : ∀ n : Focus,
      QueryName.mk (n.respell .lower).tree.text (n.respell .lower).start (n.respell .lower).stop
        = QueryName.asciiLower ⟨n.tree.text, n.start, n.stop⟩ := by
    intro n
    have hstop : (n.respell .lower).stop = n.stop :=
      congrArg Span.stop (n.span_respell keepsWidth_lower)
    rw [hstop, Focus.respell, Tree.text_asciiLower]
    rfl
  have hstop : (query.respell .lower).stop = query.stop :=
    congrArg Span.stop (query.span_respell keepsWidth_lower)
  simp only [ofNode, Focus.child?_respell keepsWidth_lower, Option.map_map, Function.comp_def,
    hname, Segment.ofRegion_asciiLower, hstop]
  cases query.child? .queryBody <;> cases query.child? .queryName <;> rfl

/-- The queries of a tree in small letters are its queries in small letters. -/
theorem QueryDocument.ofTree_asciiLower (t : Tree) :
    ofTree t.asciiLower = (ofTree t).asciiLower := by
  have hroot : (⟨t.asciiLower, 0, []⟩ : Focus) = Focus.respell .lower ⟨t, 0, []⟩ := rfl
  have hqueries : ((Focus.children ⟨t.asciiLower, 0, []⟩).filter fun c => c.tree.isKind .query)
      = ((Focus.children ⟨t, 0, []⟩).filter fun c => c.tree.isKind .query).map
        (Focus.respell .lower) := by
    rw [hroot, Focus.children_respell keepsWidth_lower, List.filter_map]
    congr 2
    exact funext fun c => c.tree.isKind_respell .lower .query
  have hdomain : ∀ d : Option Focus,
      ((d.map (Focus.respell .lower)).map Segment.ofRegion).filter (fun s => !s.text.isEmpty)
        = ((d.map Segment.ofRegion).filter fun s => !s.text.isEmpty).map Segment.asciiLower := by
    intro d
    cases d with
    | none => rfl
    | some f =>
        have hempty : (Segment.ofRegion f).asciiLower.text.isEmpty
            = (Segment.ofRegion f).text.isEmpty := Text.isEmpty_asciiLower _
        simp only [Option.map_some, Option.filter_some, Segment.ofRegion_asciiLower, hempty]
        split <;> rfl
  have hnode : Query.ofNode ∘ Focus.respell .lower = Query.asciiLower ∘ Query.ofNode :=
    funext Query.ofNode_asciiLower
  unfold ofTree
  simp only [Tree.kind?_respell, Tree.queries_respell, List.isEmpty_map, hqueries]
  rw [hroot, Focus.child?_respell keepsWidth_lower, Segment.ofRegion_asciiLower]
  split
  · rfl
  · split
    · have hempty : (Segment.ofRegion ⟨t, 0, []⟩).asciiLower.text.isEmpty
          = (Segment.ofRegion ⟨t, 0, []⟩).text.isEmpty := Text.isEmpty_asciiLower _
      simp only [hempty]
      split <;> rfl
    · rw [hdomain, List.map_map, hnode, ← List.map_map]
      rfl

/-! ## The main statement -/

/-- The range of a segment, and which settings it gives. -/
def Segment.outline (s : Segment) : Span × (SettingKey → Bool) :=
  (⟨s.start, s.stop⟩, fun key => (s.settings.get key).isSome)

/-- The range of a query's name, with the outline of its body. -/
def Query.outline (q : Query) : Option Span × Span × (SettingKey → Bool) :=
  (q.name.map fun n => ⟨n.start, n.stop⟩, q.body.outline)

/-- The outlines of the domain and of the queries. -/
def QueryDocument.outline (d : QueryDocument) :
    Option (Span × (SettingKey → Bool)) × List (Option Span × Span × (SettingKey → Bool)) :=
  (d.domain.map Segment.outline, d.queries.map Query.outline)

theorem Segment.outline_asciiLower (s : Segment) : s.asciiLower.outline = s.outline := by
  simp [outline, asciiLower, QuerySettings.get_map]

theorem Query.outline_asciiLower (q : Query) : q.asciiLower.outline = q.outline := by
  rcases q with ⟨name, body⟩
  cases name <;> simp [outline, asciiLower, QueryName.asciiLower, Segment.outline_asciiLower]

theorem QueryDocument.outline_asciiLower (d : QueryDocument) :
    d.asciiLower.outline = d.outline := by
  simp [outline, asciiLower, Function.comp_def, Segment.outline_asciiLower,
    Query.outline_asciiLower]

/-- What is read of two texts is the same but for the letter case of what is spelled out. -/
structure SameButLetters (a b : Text) : Prop where
  /-- The trees are the same in small letters. -/
  trees : (parse a).asciiLower = (parse b).asciiLower
  /-- The nodes and the tokens have the same kinds and ranges, in the same nesting. -/
  places : (parse a).focuses.map Focus.mark = (parse b).focuses.map Focus.mark
  /-- The same is wrong with both, in the same ranges. -/
  errors : syntaxErrors (parse a) = syntaxErrors (parse b)
  /-- Both are shown alike. -/
  highlights : (parse a).highlights = (parse b).highlights
  /-- The diagnostics have the same ranges and are as serious. -/
  diagnostics : (parse a).diagnostics.map (fun d => (d.span, d.finding.severity))
    = (parse b).diagnostics.map fun d => (d.span, d.finding.severity)
  /-- The diagnostics are the same in small letters. -/
  findings : (parse a).diagnostics.map Diagnostic.asciiLower
    = (parse b).diagnostics.map Diagnostic.asciiLower
  /-- The segments have the same ranges, and settings for the same keys. -/
  outlines : (QueryDocument.ofTree (parse a)).outline = (QueryDocument.ofTree (parse b)).outline
  /-- The query documents are the same in small letters. -/
  documents : (QueryDocument.ofTree (parse a)).asciiLower
    = (QueryDocument.ofTree (parse b)).asciiLower

/-- **Query text means the same in small and in capital letters.** -/
theorem parse_ignores_letter_case {a b : Text} (h : a.asciiLower = b.asciiLower) :
    SameButLetters a b := by
  have htree : (parse a).asciiLower = (parse b).asciiLower := by
    rw [← parse_asciiLower, h, parse_asciiLower]
  -- what is the same for a tree in small letters is the same for both trees
  have hsame : ∀ {α : Type} (f : Tree → α), (∀ t, f t.asciiLower = f t) →
      f (parse a) = f (parse b) := fun f hf => by rw [← hf, htree, hf]
  have hfindings : (parse a).diagnostics.map Diagnostic.asciiLower
      = (parse b).diagnostics.map Diagnostic.asciiLower := by
    rw [← Tree.diagnostics_asciiLower, htree, Tree.diagnostics_asciiLower]
  have hdocuments : (QueryDocument.ofTree (parse a)).asciiLower
      = (QueryDocument.ofTree (parse b)).asciiLower := by
    rw [← QueryDocument.ofTree_asciiLower, htree, QueryDocument.ofTree_asciiLower]
  exact {
    trees := htree
    places := hsame (fun t => t.focuses.map Focus.mark)
      (Tree.map_mark_focuses_respell keepsWidth_lower)
    errors := hsame syntaxErrors (syntaxErrors_respell keepsWidth_lower)
    highlights := hsame Tree.highlights (Tree.highlights_respell keepsWidth_lower)
    diagnostics := by
      have hranges := congrArg (List.map fun d => (d.span, d.finding.severity)) hfindings
      simpa [Diagnostic.asciiLower, Finding.severity_asciiLower, Function.comp_def] using hranges
    findings := hfindings
    outlines := by
      rw [← QueryDocument.outline_asciiLower, hdocuments, QueryDocument.outline_asciiLower]
    documents := hdocuments }

/-- A tag at the start of a line stays a tag, in capital letters too. -/
theorem parse_ignores_letter_case_sample :
    Text.asciiLower "T: Elf\nORDER:Name".toList = Text.asciiLower "t: elf\norder:NAME".toList ∧
      SameButLetters "T: Elf\nORDER:Name".toList "t: elf\norder:NAME".toList :=
  ⟨by decide, parse_ignores_letter_case (by decide)⟩

end CardQuery
