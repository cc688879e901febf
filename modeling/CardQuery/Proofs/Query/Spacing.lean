import CardQuery.Expr.Document
import CardQuery.Proofs.Editor.Respelling
import CardQuery.Proofs.Parse.Arrangement
import CardQuery.Proofs.Parse.Isolation
import CardQuery.Proofs.Parse.Respelling
import CardQuery.Proofs.Query.Extraction
import CardQuery.Proofs.Query.Respelling
import CardQuery.Proofs.Token.Edge

/-!
# Spacing

How wide the blanks between the tokens of a text are does not change what it says. Reading asks of
a blank only whether it has a newline, so blanks can be replaced by a plain space or a plain
newline: a respelling, under which every other token stays as it is. No term and no name has a
blank in it, so the expressions and the settings of a text stay the same as well.

Main statement: `parse_ignores_spacing`.
-/

set_option autoImplicit false

namespace CardQuery

open CardQuery.Tree (AllOf)

/-! ## Plain blanks -/

/-- A blank as a single newline or space; what is not blank stays as it is. -/
def plainBlank (t : Text) : Text :=
  if t.all isBlank then if t.any (· = '\n') then ['\n'] else if t = [] then [] else [' '] else t

theorem all_isBlank_plainBlank (t : Text) : (plainBlank t).all isBlank = t.all isBlank := by
  unfold plainBlank
  split
  · next hall =>
      rw [hall]
      split
      · decide
      · split <;> decide
  · rfl

theorem isClosedLiteral_of_all_isBlank (mark : LiteralKind) {t : Text}
    (h : t.all isBlank = true) : isClosedLiteral mark t = false := by
  cases t with
  | nil => rfl
  | cons c rest =>
      have hc : c ≠ mark.mark := by
        rintro rfl
        cases mark <;> simp [LiteralKind.mark, isBlank, blankRuns] at h
      simp [isClosedLiteral, hc]

theorem isClosedLiteral_plainBlank (mark : LiteralKind) (t : Text) :
    isClosedLiteral mark (plainBlank t) = isClosedLiteral mark t := by
  by_cases hall : t.all isBlank = true
  · rw [isClosedLiteral_of_all_isBlank mark hall,
      isClosedLiteral_of_all_isBlank mark ((all_isBlank_plainBlank t).trans hall)]
  · rw [plainBlank, if_neg hall]

theorem any_newline_plainBlank (t : Text) :
    (plainBlank t).any (· = '\n') = t.any (· = '\n') := by
  unfold plainBlank
  split
  · split
    · next hnewline =>
        rw [hnewline]
        rfl
    · next hnewline =>
        rw [Bool.eq_false_iff.2 hnewline]
        split <;> rfl
  · rfl

theorem plainBlank_eq_nil_iff (t : Text) : plainBlank t = [] ↔ t = [] := by
  unfold plainBlank
  split
  · split
    · next hnewline =>
        refine iff_of_false (by simp) ?_
        rintro rfl
        simp at hnewline
    · split <;> simp_all
  · rfl

/-- Every blank as a single newline or space. -/
def Respelling.plainBlanks : Respelling where
  spell k t := if k = .blank then plainBlank t else t
  spell_keyword _ _ := rfl
  isArgument_spell _ := rfl
  newline_spell := any_newline_plainBlank
  isClosedLiteral_spell mark k t := by
    split
    · exact isClosedLiteral_plainBlank mark t
    · rfl
  spell_eq_nil k t := by
    split
    · exact plainBlank_eq_nil_iff t
    · rfl

/-- Whether two tokens differ in how wide a blank they are only: they are of the same kind, and
have the same text or are blanks of which both or neither have a newline. -/
def Token.IsRespaced (t u : Token) : Prop :=
  t.kind = u.kind ∧
    if t.isBlank then t.text.any (· = '\n') = u.text.any (· = '\n') else t.text = u.text

instance : DecidableRel Token.IsRespaced := fun _ _ =>
  inferInstanceAs (Decidable (_ ∧ ite _ _ _))

/-- A token that is not blank is spelled as before. -/
theorem token_plainBlanks_of_solid {t : Token} (h : t.isBlank = false) :
    Respelling.plainBlanks.token t = t := by
  have hk : t.kind ≠ .blank := of_decide_eq_false h
  simp [Respelling.token, Respelling.plainBlanks, hk]

/-- Tokens that differ in how wide a blank they are only are the same once blanks are plain. -/
theorem Token.IsRespaced.token_eq {t u : Token} (h : t.IsRespaced u) (ht : t.IsLexeme)
    (hu : u.IsLexeme) : Respelling.plainBlanks.token t = Respelling.plainBlanks.token u := by
  obtain ⟨hkind, htext⟩ := h
  by_cases hblank : t.kind = .blank
  · have hall : ∀ x : Token, x.IsLexeme → x.kind = .blank →
        x.text.all CardQuery.isBlank = true :=
      fun x hx hk => List.all_eq_true.2 (Token.IsLexeme.forall_isBlank hx hk)
    have hplain : plainBlank t.text = plainBlank u.text := by
      rw [Token.isBlank, if_pos (decide_eq_true hblank)] at htext
      simp only [plainBlank, hall t ht hblank, hall u hu (hkind ▸ hblank), htext,
        Token.IsLexeme.text_ne_nil ht, Token.IsLexeme.text_ne_nil hu, if_true, if_false]
    simp [Respelling.token, Respelling.plainBlanks, ← hkind, hblank, hplain]
  · have htext : t.text = u.text := by simpa [Token.isBlank, hblank] using htext
    simp [Respelling.token, ← hkind, htext]

theorem map_token_eq_of_isRespaced {ts us : List Token} (h : List.Forall₂ Token.IsRespaced ts us)
    (hts : ∀ t ∈ ts, t.IsLexeme) (hus : ∀ u ∈ us, u.IsLexeme) :
    ts.map Respelling.plainBlanks.token = us.map Respelling.plainBlanks.token := by
  induction h with
  | nil => rfl
  | cons hhead htail ih =>
      obtain ⟨ht, hts⟩ := List.forall_mem_cons.1 hts
      obtain ⟨hu, hus⟩ := List.forall_mem_cons.1 hus
      rw [List.map_cons, List.map_cons, hhead.token_eq ht hu, ih hts hus]

/-! ## Nodes without blanks -/

/-- Whether a node has no blank in it, wherever it stands: a tag, a part of one, or a name. -/
def NodeKind.isTight (k : NodeKind) : Bool :=
  k = .tag || k.isTagPart || k = .queryName

theorem NodeKind.Parts.isBlank_eq_false {k : NodeKind} {cs : List Tree} (h : k.Parts cs)
    (hk : k.isTight = true) (htag : k ≠ .tag) : ∀ t ∈ Tree.tokensOf cs, t.isBlank = false := by
  have hsolid : ∀ {t : Token} {j : TokenKind}, t.kind = j → j ≠ .blank → t.isBlank = false :=
    fun ht hj => by rw [Token.isBlank, ht]; exact decide_eq_false hj
  cases k with
  | queryName | argument | sign =>
      obtain ⟨t, rfl, ht⟩ := h
      simpa using hsolid ht (by simp)
  | operator =>
      obtain ⟨t, rfl, ht⟩ := h
      simp only [Tree.tokensOf_cons, Tree.tokens_token, Tree.tokensOf_nil, List.append_nil,
        List.mem_singleton, forall_eq]
      cases hkind : t.kind <;> simp_all [Token.isBlank, TokenKind.isComparison]
  | literal mark =>
      obtain ⟨t, rfl, ht⟩ := h
      simpa using hsolid ht (by simp)
  | value =>
      obtain ⟨ts, -, rfl, hts⟩ := h
      intro t ht
      rw [Tree.tokensOf_map_token] at ht
      rcases hts t ht with hword | hminus
      · exact hsolid hword (by simp)
      · exact hsolid hminus (by simp)
  | tag => exact absurd rfl htag
  | _ => simp [isTight, isTagPart] at hk

/-- A tag, a part of one, or a name has no blank that could be spelled anew. -/
theorem respell_plainBlanks_of_isTight {k : NodeKind} {cs : List Tree} (hk : k.isTight = true)
    (h : (Tree.node k cs).All NodeKind.Arranged) :
    (Tree.node k cs).respell .plainBlanks = .node k cs := by
  have hself : ∀ {j : NodeKind} {ds : List Tree}, j.Parts ds → j.isTight = true → j ≠ .tag →
      (Tree.node j ds).respell .plainBlanks = .node j ds := by
    intro j ds hparts hj htag
    refine Tree.respell_eq_self .plainBlanks fun x hx => token_plainBlanks_of_solid ?_
    exact hparts.isBlank_eq_false hj htag x (by simpa using hx)
  obtain ⟨harranged, hcs⟩ := (Tree.all_node k cs).1 h
  by_cases htag : k = .tag
  · -- a tag has nodes only, and each of them is one of its parts
    subst htag
    rw [Tree.respell_node]
    refine congrArg (Tree.node .tag) ((List.map_congr_left fun c hc => ?_).trans (List.map_id' cs))
    cases c with
    | token x => cases harranged.parts.1 _ hc
    | node j ds =>
        have hpart : j.isTagPart = true := harranged.nests _ hc
        have hall := Tree.allOf_iff_forall.1 hcs _ hc
        refine hself ((Tree.all_node j ds).1 hall).1.parts (by simp [NodeKind.isTight, hpart]) ?_
        rintro rfl
        cases hpart
  · exact hself harranged.parts hk htag

/-! ## Expressions -/

namespace Tree

mutual

/-- The expression of a tree does not depend on its blanks. -/
theorem lower_plainBlanks {t : Tree} (h : t.All NodeKind.Arranged) :
    (t.respell .plainBlanks).lower = t.lower := by
  cases t with
  | token t => simp [lower]
  | node k cs =>
      have hcs := lowerEach_plainBlanks ((all_node k cs).1 h).2
      cases k with
      | tag | argument | literal mark => rw [respell_plainBlanks_of_isTight rfl h]
      | clause => simp only [respell_node, lower, hcs]
      | binary op => simp only [respell_node, lower, hcs]
      | _ => simp [lower]

theorem lowerEach_plainBlanks {cs : List Tree} (h : AllOf NodeKind.Arranged cs) :
    lowerEach (cs.map (respell .plainBlanks)) = lowerEach cs := by
  cases cs with
  | nil => rfl
  | cons c cs =>
      obtain ⟨hc, hcs⟩ := (allOf_cons c cs).1 h
      rw [List.map_cons, lowerEach, lowerEach, isExpression_respell, lower_plainBlanks hc,
        lowerEach_plainBlanks hcs]

end

theorem allOf_children {p : NodeKind → List Tree → Prop} {t : Tree} (h : t.All p) :
    AllOf p t.children := by
  cases t with
  | token t => simp [children]
  | node k cs => exact ((all_node k cs).1 h).2

theorem lowerRegion_plainBlanks {t : Tree} (h : t.All NodeKind.Arranged) :
    (t.respell .plainBlanks).lowerRegion = t.lowerRegion := by
  rw [lowerRegion, children_respell, lowerEach_plainBlanks (allOf_children h), lowerRegion]

end Tree

/-- The expressions of a text do not depend on its blanks. -/
theorem Document.ofTree_plainBlanks {t : Tree} (h : t.All NodeKind.Arranged) :
    ofTree (t.respell .plainBlanks) = ofTree t := by
  have hchild : ∀ {s : Tree} {k : NodeKind}, s.All NodeKind.Arranged →
      ((s.child? k).map (Tree.respell .plainBlanks)).bind Tree.lowerRegion
        = (s.child? k).bind Tree.lowerRegion := by
    intro s k hs
    cases hc : s.child? k with
    | none => rfl
    | some c => exact Tree.lowerRegion_plainBlanks (Tree.all_of_child? hs hc)
  have hname : ∀ {q : Tree}, q.All NodeKind.Arranged →
      ((q.queryName?.map (Tree.respell .plainBlanks)).map Tree.text)
        = q.queryName?.map Tree.text := by
    intro q hq
    cases hn : q.queryName? with
    | none => rfl
    | some n =>
        have hall := Tree.all_of_child? hq hn
        have hkind : n.isKind .queryName = true := List.find?_some hn
        cases n with
        | token x => cases hkind
        | node k cs =>
            obtain rfl : k = .queryName := by simpa [Tree.isKind, Tree.kind?] using hkind
            simp only [Option.map_some, respell_plainBlanks_of_isTight rfl hall]
  have hqueries : t.queries.map ((fun q : Tree => (⟨q.queryName?.map Tree.text,
        q.queryBody?.bind Tree.lowerRegion⟩ : DocumentEntry)) ∘ Tree.respell .plainBlanks)
      = t.queries.map fun q =>
        ⟨q.queryName?.map Tree.text, q.queryBody?.bind Tree.lowerRegion⟩ := by
    refine List.map_congr_left fun q hq => ?_
    have hall := Tree.allOf_iff_forall.1 (Tree.allOf_children h) q (List.mem_filter.1 hq).1
    have hnames := hname hall
    have hbodies := hchild (k := .queryBody) hall
    rw [← Tree.child?_respell] at hbodies
    rw [Tree.queryName?, ← Tree.child?_respell] at hnames
    simp only [Function.comp_apply, Tree.queryName?, Tree.queryBody?, hnames, hbodies]
  unfold ofTree
  simp only [Tree.kind?_respell, Tree.queries_respell, List.isEmpty_map, List.map_map,
    Tree.lowerRegion_plainBlanks h, hqueries, Tree.domain?, Tree.child?_respell, hchild h]

/-! ## Settings -/

namespace Tree

mutual

/-- What holds of every node holds of every node below each node. -/
theorem all_all {p : NodeKind → List Tree → Prop} {t : Tree} (h : t.All p) :
    t.All fun k cs => (node k cs).All p := by
  cases t with
  | token t => simp
  | node k cs =>
      rw [all_node]
      exact ⟨h, allOf_all ((all_node k cs).1 h).2⟩

theorem allOf_all {p : NodeKind → List Tree → Prop} {cs : List Tree} (h : AllOf p cs) :
    AllOf (fun k cs => (node k cs).All p) cs := by
  cases cs with
  | nil => simp
  | cons c cs =>
      obtain ⟨hc, hcs⟩ := (allOf_cons c cs).1 h
      exact (allOf_cons c cs).2 ⟨all_all hc, allOf_all hcs⟩

end

/-- The settings that a region gives. -/
def regionSettings (t : Tree) : QuerySettings :=
  .ofList t.stripRegion.settings

theorem regionSettings_plainBlanks {t : Tree} (h : t.All NodeKind.Arranged) :
    (t.respell .plainBlanks).regionSettings = t.regionSettings := by
  have hkeeps : t.All (NodeKind.KeepsSetting .plainBlanks id) := by
    refine (all_all h).imp fun k cs hall htag => ?_
    subst htag
    rw [← respell_node, respell_plainBlanks_of_isTight rfl hall, Prod.map_id, Option.map_id]
    rfl
  have hstrip := stripRegion_respell .plainBlanks id hkeeps
  rw [regionSettings, hstrip, regionSettings, Stripped.respell, Prod.map_id, List.map_id]

theorem bodyRegions_respell (r : Respelling) (t : Tree) :
    (t.respell r).bodyRegions = t.bodyRegions.map (respell r) := by
  have hblank : (t.respell r).trimmedText.isEmpty = t.trimmedText.isEmpty := by
    rw [Bool.eq_iff_iff, List.isEmpty_iff, List.isEmpty_iff]
    exact t.trimmedText_respell_eq_nil r
  unfold bodyRegions
  rw [queries_respell, List.isEmpty_map, hblank]
  split
  · split <;> rfl
  · rw [List.filterMap_map, List.map_filterMap]
    exact congrArg (t.queries.filterMap ·) (funext fun q => q.child?_respell r .queryBody)

/-- The settings of the regions of a text do not depend on its blanks. -/
theorem map_regionSettings_plainBlanks {t : Tree} (h : t.All NodeKind.Arranged) :
    (t.respell .plainBlanks).domain?.map regionSettings = t.domain?.map regionSettings ∧
      (t.respell .plainBlanks).bodyRegions.map regionSettings
        = t.bodyRegions.map regionSettings := by
  constructor
  · rw [domain?, child?_respell, Option.map_map]
    refine Option.map_congr fun region hregion => ?_
    exact regionSettings_plainBlanks (all_of_child? h hregion)
  · rw [bodyRegions_respell, List.map_map]
    refine List.map_congr_left fun region hregion => ?_
    refine regionSettings_plainBlanks ?_
    -- a body is the whole tree or the body of one of its queries
    unfold bodyRegions at hregion
    split at hregion
    · split at hregion
      · cases hregion
      · rw [List.mem_singleton.1 hregion]
        exact h
    · obtain ⟨q, hq, hbody⟩ := List.mem_filterMap.1 hregion
      exact all_of_child? (allOf_iff_forall.1 (allOf_children h) q (List.mem_filter.1 hq).1) hbody

end Tree

theorem messages_respell (r : Respelling) (t : Tree) : messages (t.respell r) = messages t := by
  have hproblems := congrArg (List.map Problem.message) (map_problem_respell r 0 0 t)
  rw [messages_eq 0, messages_eq 0]
  simpa [Function.comp_def] using hproblems

theorem IsSegment.settings_eq {region : Tree} {s : Segment} (h : IsSegment region s) :
    s.settings = region.regionSettings := by
  obtain ⟨start, above, rfl⟩ := h
  rfl

theorem QueryDocument.domain_settings_ofTree {t : Tree} (h : t.IsDocument) :
    (ofTree t).domain.map Segment.settings = t.domain?.map Tree.regionSettings := by
  have hdomain := rel_domain_of_isDocument h
  generalize (ofTree t).domain = shared at hdomain ⊢
  generalize t.domain? = region at hdomain ⊢
  cases hdomain with
  | none => rfl
  | some hsegment => exact congrArg some hsegment.settings_eq

theorem QueryDocument.query_settings_ofTree {t : Tree} (h : t.IsDocument) :
    (ofTree t).queries.map (fun q => q.body.settings) = t.bodyRegions.map Tree.regionSettings := by
  have hbodies := List.forall₂_map_right_iff.1 (forall₂_bodies_of_isDocument h)
  generalize (ofTree t).queries = queries at hbodies ⊢
  generalize t.bodyRegions = regions at hbodies ⊢
  induction hbodies with
  | nil => rfl
  | cons hsegment _ ih => rw [List.map_cons, List.map_cons, ih, hsegment.settings_eq]

/-! ## The main statement -/

/-- What two texts say has the same meaning: the same expressions, the same settings, and the same
errors in the same order. -/
structure SameMeaning (a b : Text) : Prop where
  document : Document.ofTree (parse a) = Document.ofTree (parse b)
  domainSettings : (QueryDocument.ofTree (parse a)).domain.map Segment.settings
    = (QueryDocument.ofTree (parse b)).domain.map Segment.settings
  querySettings : (QueryDocument.ofTree (parse a)).queries.map (fun q => q.body.settings)
    = (QueryDocument.ofTree (parse b)).queries.map fun q => q.body.settings
  messages : messages (parse a) = messages (parse b)

/-- **Spacing does not change what a text says.** -/
theorem parse_ignores_spacing {a b : Text}
    (h : List.Forall₂ Token.IsRespaced (tokenize a) (tokenize b)) : SameMeaning a b := by
  have htree : (parse a).respell .plainBlanks = (parse b).respell .plainBlanks := by
    rw [parse, parse, ← parseTokens_respell, ← parseTokens_respell,
      map_token_eq_of_isRespaced h (fun _ hx => isLexeme_of_mem_tokenize hx)
        fun _ hx => isLexeme_of_mem_tokenize hx]
  have hdomains : ∀ t : Text, (QueryDocument.ofTree (parse t)).domain.map Segment.settings
      = ((parse t).respell .plainBlanks).domain?.map Tree.regionSettings := fun t => by
    rw [QueryDocument.domain_settings_ofTree (isDocument_parse t),
      (Tree.map_regionSettings_plainBlanks (all_arranged_parse t)).1]
  have hqueries : ∀ t : Text,
      (QueryDocument.ofTree (parse t)).queries.map (fun q => q.body.settings)
        = ((parse t).respell .plainBlanks).bodyRegions.map Tree.regionSettings := fun t => by
    rw [QueryDocument.query_settings_ofTree (isDocument_parse t),
      (Tree.map_regionSettings_plainBlanks (all_arranged_parse t)).2]
  exact {
    document := by
      rw [← Document.ofTree_plainBlanks (all_arranged_parse a), htree,
        Document.ofTree_plainBlanks (all_arranged_parse b)]
    domainSettings := by rw [hdomains, hdomains, htree]
    querySettings := by rw [hqueries, hqueries, htree]
    messages := by
      rw [← messages_respell .plainBlanks (parse a), htree, messages_respell .plainBlanks] }

/-- Blanks of other widths, one of them with more lines. -/
theorem parse_ignores_spacing_sample :
    List.Forall₂ Token.IsRespaced (tokenize "a  order:name\nq:\tb )".toList)
        (tokenize "a order:name \n\nq: b   )".toList) ∧
      SameMeaning "a  order:name\nq:\tb )".toList "a order:name \n\nq: b   )".toList :=
  ⟨by decide +kernel, parse_ignores_spacing (by decide +kernel)⟩

end CardQuery
