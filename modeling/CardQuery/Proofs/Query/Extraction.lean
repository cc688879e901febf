import CardQuery.Proofs.Parse.Report
import CardQuery.Proofs.Query.Segment

/-!
# What the queries of a text take from it

The names and segments of a document lie side by side in the text: each is a part of the text with
its bytes, none begins before the one before it ends, and whatever is between them is blank. The
proof follows how the text was cut. `Tiles` puts ranges over rows of tokens one behind the other,
and each section gives the ranges of its name, its colon and its body.

Main statement: the document of a text takes every part of it once (`extracts_parse`).
-/

set_option autoImplicit false

namespace CardQuery

/-! ## Ranges over rows -/

/-- Whether another range stands inside this one. -/
def Span.holds (outer inner : Span) : Bool :=
  outer.start ≤ inner.start && inner.stop ≤ outer.stop

@[simp] theorem Span.holds_iff (outer inner : Span) :
    outer.holds inner = true ↔ outer.start ≤ inner.start ∧ inner.stop ≤ outer.stop := by
  simp [holds]

/-- Whether a range stands in a row of tokens that begins at `start` and has in it every token of
the row that is not blank. -/
structure Span.Covers (s : Span) (start : Nat) (ts : List Token) : Prop where
  start_le : start ≤ s.start
  start_le_stop : s.start ≤ s.stop
  stop_le : s.stop ≤ start + tokensWidth ts
  holds : ∀ p ∈ placeTokens start ts, p.token.isBlank = false → s.holds p.span = true

theorem Span.covers_token (start : Nat) (t : Token) :
    Covers ⟨start, start + t.width⟩ start [t] := by
  refine ⟨Nat.le_refl _, Nat.le_add_right _ _, by simp [tokensWidth], fun p hp _ => ?_⟩
  obtain rfl : p = ⟨t, start⟩ := by simpa [placeTokens] using hp
  simp [PlacedToken.span]

/-- Rows of tokens one behind the other, of which each is blank or has a range. -/
inductive Tiles : Nat → List Token → List Span → Prop
  | nil (start : Nat) : Tiles start [] []
  | gap {start : Nat} {us ts : List Token} {spans : List Span} (hus : ∀ t ∈ us, t.isBlank = true)
      (rest : Tiles (start + tokensWidth us) ts spans) : Tiles start (us ++ ts) spans
  | tile {start : Nat} {us ts : List Token} {s : Span} {spans : List Span} (h : s.Covers start us)
      (rest : Tiles (start + tokensWidth us) ts spans) : Tiles start (us ++ ts) (s :: spans)

namespace Tiles

variable {start : Nat} {ts us : List Token} {spans spans' : List Span}

theorem append (h : Tiles start ts spans) (h' : Tiles (start + tokensWidth ts) us spans') :
    Tiles start (ts ++ us) (spans ++ spans') := by
  induction h with
  | nil start => simpa [tokensWidth] using h'
  | gap hus rest ih =>
      rw [tokensWidth_append, ← Nat.add_assoc] at h'
      rw [List.append_assoc]
      exact .gap hus (ih h')
  | tile hcovers rest ih =>
      rw [tokensWidth_append, ← Nat.add_assoc] at h'
      rw [List.append_assoc]
      exact .tile hcovers (ih h')

theorem ofGap (h : ∀ t ∈ ts, t.isBlank = true) : Tiles start ts [] := by
  simpa using Tiles.gap h (.nil _)

theorem ofTile {s : Span} (h : s.Covers start ts) : Tiles start ts [s] := by
  simpa using Tiles.tile h (.nil _)

/-- Every range stands in the rows. -/
theorem bounds (h : Tiles start ts spans) :
    ∀ s ∈ spans, start ≤ s.start ∧ s.start ≤ s.stop ∧ s.stop ≤ start + tokensWidth ts := by
  induction h with
  | nil start => simp
  | gap hus rest ih =>
      intro s hs
      have hbounds := ih s hs
      rw [tokensWidth_append]
      omega
  | tile hcovers rest ih =>
      obtain ⟨hstart, hle, hstop, -⟩ := hcovers
      rw [tokensWidth_append]
      refine List.forall_mem_cons.2 ⟨by omega, fun s hs => ?_⟩
      have hbounds := ih s hs
      omega

/-- No range begins before those before it end. -/
theorem pairwise (h : Tiles start ts spans) : spans.Pairwise fun a b => a.stop ≤ b.start := by
  induction h with
  | nil start => exact .nil
  | gap hus rest ih => exact ih
  | tile hcovers rest ih =>
      exact .cons (fun s hs => Nat.le_trans hcovers.stop_le (rest.bounds s hs).1) ih

/-- A range that stands behind a token, or before it, does not have it inside. -/
theorem not_holds {s : Span} {p : PlacedToken} (hwidth : 0 < p.token.width)
    (h : s.stop ≤ p.start ∨ p.span.stop ≤ s.start) : ¬ s.holds p.span = true := by
  simp only [PlacedToken.span, Span.holds_iff] at h ⊢
  omega

/-- **Exactly one range has a token inside that is not blank.** -/
theorem countP_eq_one (h : Tiles start ts spans) (hts : ∀ t ∈ ts, 0 < t.width) {p : PlacedToken}
    (hp : p ∈ placeTokens start ts) (hblank : p.token.isBlank = false) :
    spans.countP (fun s => s.holds p.span) = 1 := by
  have hwidth : 0 < p.token.width := hts _ (placeTokens_bounds hp).1
  induction h with
  | nil start => cases hp
  | gap hus rest ih =>
      rw [placeTokens_append, List.mem_append] at hp
      rcases hp with hp | hp
      · rw [hus _ (placeTokens_bounds hp).1] at hblank
        cases hblank
      · exact ih (fun t ht => hts t (List.mem_append_right _ ht)) hp
  | @tile start us ts s spans hcovers rest ih =>
      rw [placeTokens_append, List.mem_append] at hp
      rcases hp with hp | hp
      · -- the later ranges stand behind the row of the token
        have hlater : ∀ s' ∈ spans, ¬ s'.holds p.span = true := fun s' hs' =>
          not_holds hwidth
            (Or.inr (Nat.le_trans (placeTokens_bounds hp).2.2 (rest.bounds s' hs').1))
        have hself : s.holds p.span = true := hcovers.holds p hp hblank
        simp only [List.countP_cons, hself, if_true, List.countP_eq_zero.2 hlater]
      · have hbefore : ¬ s.holds p.span = true :=
          not_holds hwidth (Or.inl (Nat.le_trans hcovers.stop_le (placeTokens_bounds hp).2.1))
        simp only [List.countP_cons, hbefore, Bool.false_eq_true, if_false]
        exact ih (fun t ht => hts t (List.mem_append_right _ ht)) hp

end Tiles

theorem Segment.Trims.covers {s : Segment} {start : Nat} {ts : List Token}
    (h : s.Trims start ts) : Span.Covers ⟨s.start, s.stop⟩ start ts := by
  obtain ⟨hstart, hle, hstop⟩ := h.bounds
  refine ⟨hstart, hle, hstop, fun p hp hblank => ?_⟩
  exact (Span.holds_iff _ _).2 (h.holds hp hblank)

/-! ## Sections and headers -/

/-- Each section with what stands before it, when `before` stands before the first. -/
def sectionsAfter (before : List Token) : List Section → List (List Token × Section)
  | [] => []
  | s :: rest => (before, s) :: sectionsAfter (before ++ s.tokens) rest

theorem sectionsAfter_cons (t : Token) (before : List Token) (sections : List Section) :
    sectionsAfter (t :: before) sections
      = (sectionsAfter before sections).map fun x => (t :: x.1, x.2) := by
  induction sections generalizing before with
  | nil => rfl
  | cons s rest ih =>
      rw [sectionsAfter, sectionsAfter, List.map_cons, ← ih]
      rfl

/-- A section stands in the row behind what stands before it. -/
theorem exists_of_mem_sectionsAfter {before : List Token} {sections : List Section}
    {x : List Token × Section} (h : x ∈ sectionsAfter before sections) :
    x.2 ∈ sections ∧ ∃ after,
      before ++ sections.flatMap Section.tokens = x.1 ++ (x.2.tokens ++ after) := by
  induction sections generalizing before with
  | nil => cases h
  | cons s rest ih =>
      rcases List.mem_cons.1 h with rfl | h
      · exact ⟨List.mem_cons_self, rest.flatMap Section.tokens, rfl⟩
      · obtain ⟨hmem, after, hrow⟩ := ih h
        refine ⟨List.mem_cons_of_mem s hmem, after, ?_⟩
        rw [← hrow, List.flatMap_cons, List.append_assoc]

theorem headersFrom_eq_map (first atLine : Bool) (ts : List Token) :
    headersFrom first atLine ts
      = (sectionsAfter (cutFrom first atLine ts).1 (cutFrom first atLine ts).2).map
          fun x => x.1.length := by
  induction ts generalizing first atLine with
  | nil => rfl
  | cons t ts ih =>
      have hrest := ih false (startsLine first t)
      have hlater : ∀ run sections, cutFrom false (startsLine first t) ts = (run, sections) →
          (headersFrom false (startsLine first t) ts).map (· + 1)
            = (sectionsAfter (t :: run) sections).map fun x => x.1.length := by
        intro run sections hcut
        rw [hrest, hcut, sectionsAfter_cons, List.map_map, List.map_map]
        rfl
      by_cases hheader : (atLine && isHeader t ts) = true
      · -- the run behind a header begins with its colon, so it is cut there
        obtain ⟨colon, body, hrun⟩ := cutFrom_ne_nil_of_isHeader
          (Bool.and_eq_true_iff.1 hheader).2 false (startsLine first t)
        rcases hcut : cutFrom false (startsLine first t) ts with ⟨run, sections⟩
        rw [hcut] at hrun
        obtain rfl : run = colon :: body := hrun
        simp only [headersFrom, hheader, if_true, cutFrom, hcut, hlater _ _ hcut]
        rfl
      · rcases hcut : cutFrom false (startsLine first t) ts with ⟨run, sections⟩
        simp only [headersFrom, hheader, cutFrom, hcut, hlater _ _ hcut]
        cases run <;> rfl

/-- The headers of a row stand where its sections begin. -/
theorem headers_eq_map (ts : List Token) :
    headers ts = (sectionsAfter (cutAtHeaders ts).1 (cutAtHeaders ts).2).map
      fun x => x.1.length := by
  rw [headers_eq_headersFrom, headersFrom_eq_map]
  rfl

/-! ## The queries of the sections -/

namespace Focus

/-- Children in front that are left out move the others behind by their width. -/
theorem filter_childrenFrom_append {p : Tree → Bool} {cs : List Tree} (h : ∀ c ∈ cs, p c = false)
    (above : List Step) (k : NodeKind) (nodeStart : Nat) (before : List Tree) (start : Nat)
    (ds : List Tree) :
    (childrenFrom above k nodeStart before start (cs ++ ds)).filter (fun f => p f.tree)
      = (childrenFrom above k nodeStart (before ++ cs) (start + Tree.widthOf cs) ds).filter
          fun f => p f.tree := by
  induction cs generalizing before start with
  | nil => simp [Tree.widthOf]
  | cons c cs ih =>
      obtain ⟨hc, hcs⟩ := List.forall_mem_cons.1 h
      rw [List.cons_append, childrenFrom, List.filter_cons_of_neg (by simp [hc]), ih hcs,
        Tree.widthOf, Nat.add_assoc, List.append_assoc]
      rfl

/-- The first child of interest stands behind the children before it. -/
theorem exists_find?_children {p : Tree → Bool} {f : Focus} {before after : List Tree} {c : Tree}
    (h : f.tree.children = before ++ c :: after) (hbefore : ∀ b ∈ before, p b = false)
    (hc : p c = true) :
    ∃ steps, (f.children.find? fun c => p c.tree)
      = some ⟨c, f.start + Tree.widthOf before, steps⟩ := by
  rcases f with ⟨t, start, above⟩
  cases t with
  | token t => cases before <;> cases h
  | node j cs =>
      obtain rfl : cs = before ++ c :: after := h
      refine ⟨⟨j, start, before, after⟩ :: above, ?_⟩
      have hfilter := filter_childrenFrom_append hbefore above j start [] start (c :: after)
      rw [List.nil_append, childrenFrom, List.filter_cons_of_pos (by exact hc)] at hfilter
      rw [← List.head?_filter]
      exact congrArg List.head? hfilter

theorem exists_child? {f : Focus} {k : NodeKind} {before after : List Tree} {c : Tree}
    (h : f.tree.children = before ++ c :: after) (hbefore : ∀ b ∈ before, b.isKind k = false)
    (hc : c.isKind k = true) :
    ∃ steps, f.child? k = some ⟨c, f.start + Tree.widthOf before, steps⟩ :=
  exists_find?_children h hbefore hc

end Focus

/-- Whether a query is that of a section which begins at `start`. -/
structure Query.OfSection (q : Query) (start : Nat) (s : Section) : Prop where
  name_eq : q.name = some ⟨s.name.text, start, start + s.name.width⟩
  body : q.body.Trims
    (start + s.name.width + s.colon.width + tokensWidth (s.body.takeWhile Token.isBlank))
    (s.body.dropWhile Token.isBlank)

theorem Query.ofSection_ofNode (s : Section) (start : Nat) (above : List Step) :
    (Query.ofNode ⟨s.tree, start, above⟩).OfSection start s := by
  -- the name is the first child and the body the last, with the colon and blanks between them
  have hfirst : s.tree.children = [] ++ .leaf .queryName s.name :: (.token s.colon
      :: ((s.body.takeWhile Token.isBlank).map .token
        ++ [.node .queryBody (regionTrees (s.body.dropWhile Token.isBlank))])) := rfl
  have hlast : s.tree.children = (.leaf .queryName s.name :: .token s.colon
      :: (s.body.takeWhile Token.isBlank).map .token)
        ++ .node .queryBody (regionTrees (s.body.dropWhile Token.isBlank)) :: [] := rfl
  obtain ⟨steps, hname⟩ := Focus.exists_child? (f := ⟨s.tree, start, above⟩) (k := .queryName)
    hfirst (by simp) rfl
  obtain ⟨steps', hbody⟩ := Focus.exists_child? (f := ⟨s.tree, start, above⟩) (k := .queryBody)
    hlast (by simp [Tree.isKind, Tree.leaf, Tree.kind?]) rfl
  have hwidth : start + Tree.widthOf (.leaf .queryName s.name :: .token s.colon
      :: (s.body.takeWhile Token.isBlank).map .token)
        = start + s.name.width + s.colon.width
          + tokensWidth (s.body.takeWhile Token.isBlank) := by
    simp [Tree.widthOf, Tree.width, Tree.leaf, widthOf_map_token, Nat.add_assoc]
  constructor
  · simp [Query.ofNode, hname, Tree.widthOf, Focus.stop, Tree.width, Tree.leaf, Tree.text]
  · rw [Query.ofNode, hbody, hwidth]
    exact Segment.trims_ofRegion _ _ _ _

/-- The queries of the sections are theirs one by one. -/
theorem forall₂_ofSection (above : List Step) (k : NodeKind) (nodeStart : Nat)
    (siblings : List Tree) (before : List Token) (sections : List Section) :
    List.Forall₂ (fun x q => Query.OfSection q (tokensWidth x.1) x.2)
      (sectionsAfter before sections)
      (((Focus.childrenFrom above k nodeStart siblings (tokensWidth before)
        (sections.map Section.tree)).filter fun c => c.tree.isKind .query).map Query.ofNode) := by
  induction sections generalizing siblings before with
  | nil => exact .nil
  | cons s rest ih =>
      have hwidth : tokensWidth before + s.tree.width = tokensWidth (before ++ s.tokens) := by
        rw [tokensWidth_append, Tree.width_of_text s.text_tree]
      rw [List.map_cons, Focus.childrenFrom, List.filter_cons_of_pos (by rfl), List.map_cons,
        hwidth]
      exact .cons (Query.ofSection_ofNode s _ _) (ih _ _)

/-! ## The tree of a text as a program -/

/-- The tree of a text is one region, or a program with a query for each section. -/
theorem parse_cases (t : Text) :
    (parse t = .node .program (regionTrees (tokenize t)) ∧ headers (tokenize t) = []) ∨
      ∃ run sections, cutAtHeaders (tokenize t) = (run, sections) ∧ sections ≠ [] ∧
        headers (tokenize t) ≠ [] ∧ (∀ x ∈ run, x.IsLexeme) ∧
        parse t = .node .program (domainTrees run ++ sections.map Section.tree) := by
  have hlength := length_headers (tokenize t)
  have hrow := cutFrom_tokens true true (tokenize t)
  rw [← cutAtHeaders] at hrow
  rw [parse, parseTokens]
  split
  · next run hcut =>
      rw [hcut] at hrow hlength
      obtain rfl : run = tokenize t := by simpa using hrow
      exact Or.inl ⟨rfl, List.eq_nil_of_length_eq_zero hlength⟩
  · next run sections hne hcut =>
      rw [hcut] at hrow hlength
      have hne' : sections ≠ [] := fun hnil => hne (by rw [hnil])
      refine Or.inr ⟨run, sections, hcut, hne', fun hnone => ?_, fun x hx => ?_, rfl⟩
      · rw [hnone] at hlength
        exact hne' (List.eq_nil_of_length_eq_zero hlength.symm)
      · exact isLexeme_of_mem_tokenize (by rw [← hrow]; exact List.mem_append_left _ hx)

/-- Whatever is wrong with a text, its tree is a program with a segment for each region. -/
theorem isDocument_parse (t : Text) : (parse t).IsDocument := by
  rcases parse_cases t with ⟨hparse, -⟩ | ⟨run, sections, -, hne, -, hrun, hparse⟩
  · rw [hparse]
    exact isDocument_region _
  · rw [hparse]
    exact isDocument_sections hne hrun

/-! ## The document of a text -/

/-- The document of a text with headers, whose first part is `run`. -/
structure QueryDocument.OfSections (d : QueryDocument) (run : List Token)
    (sections : List Section) : Prop where
  domain : (run.dropWhile Token.isBlank = [] ∧ d.domain = none) ∨
    ∃ s, d.domain = some s ∧
      s.Trims (tokensWidth (run.takeWhile Token.isBlank)) (run.dropWhile Token.isBlank)
  queries : List.Forall₂ (fun x q => Query.OfSection q (tokensWidth x.1) x.2)
    (sectionsAfter run sections) d.queries

/-- The domain of a text with headers begins with what is not blank in front of them. -/
theorem domain_of_sections {run : List Token} (hrun : ∀ t ∈ run, t.IsLexeme)
    (sections : List Section) {domain : Option Segment}
    (hdomain : domain = ((Focus.child? .domain
      ⟨.node .program (domainTrees run ++ sections.map Section.tree), 0, []⟩).map
        Segment.ofRegion).filter fun d => !d.text.isEmpty) :
    (run.dropWhile Token.isBlank = [] ∧ domain = none) ∨
      ∃ s, domain = some s ∧
        s.Trims (tokensWidth (run.takeWhile Token.isBlank)) (run.dropWhile Token.isBlank) := by
  have htree := Focus.map_tree_child?
    ⟨.node .program (domainTrees run ++ sections.map Section.tree), 0, []⟩ .domain
  have hpart := domain?_of_sections run sections
  cases hsolid : run.dropWhile Token.isBlank with
  | nil =>
      rw [hsolid] at hpart
      rw [← Tree.domain?, hpart, Option.map_eq_none_iff] at htree
      exact Or.inl ⟨rfl, by rw [hdomain, htree]; rfl⟩
  | cons t ts =>
      have hchildren : (Tree.node .program (domainTrees run ++ sections.map Section.tree)).children
          = (run.takeWhile Token.isBlank).map .token
            ++ .node .domain (regionTrees (t :: ts)) :: sections.map Section.tree := by
        simp [Tree.children, domainTrees, hsolid]
      obtain ⟨steps, hchild⟩ := Focus.exists_child? (f := ⟨.node .program
        (domainTrees run ++ sections.map Section.tree), 0, []⟩) (k := .domain) hchildren
        (by simp [Tree.isKind, Tree.kind?]) rfl
      rw [widthOf_map_token, Nat.zero_add] at hchild
      have htrims := Segment.trims_ofRegion .domain (t :: ts)
        (tokensWidth (run.takeWhile Token.isBlank)) steps
      have hkeep : (Segment.ofRegion ⟨.node .domain (regionTrees (t :: ts)),
          tokensWidth (run.takeWhile Token.isBlank), steps⟩).text ≠ [] := by
        rw [← hsolid]
        exact trimmedText_ne_nil (isLexeme_of_dropWhile hrun) (by simp [hsolid])
          (head?_dropWhile_isBlank run) .domain
      refine Or.inr ⟨_, ?_, htrims⟩
      rw [hdomain, hchild, Option.map_some, Option.filter_some, if_pos (by simpa using hkeep)]

theorem QueryDocument.ofSections_ofTree {run : List Token} {sections : List Section}
    (hne : sections ≠ []) (hrun : ∀ t ∈ run, t.IsLexeme) :
    (ofTree (.node .program (domainTrees run ++ sections.map Section.tree))).OfSections run
      sections := by
  have hsome :
      (Tree.node .program (domainTrees run ++ sections.map Section.tree)).queries ≠ [] := by
    simpa [queries_of_sections] using hne
  have hwidth : 0 + Tree.widthOf (domainTrees run) = tokensWidth run := by
    rw [Nat.zero_add, ← Tree.tokensWidth_tokensOf, ← width_tokensText, tokensText_domainTrees,
      width_tokensText]
  have hfilter := Focus.filter_childrenFrom_append
    (fun c (hc : c ∈ domainTrees run) => isKind_query_domainTrees hc) [] .program 0 [] 0
    (sections.map Section.tree)
  rw [hwidth] at hfilter
  rw [ofTree_of_queries_ne_nil rfl hsome]
  constructor
  · exact domain_of_sections hrun sections rfl
  · simp only [Focus.children, hfilter]
    exact forall₂_ofSection _ _ _ _ _ _

/-! ## Its ranges -/

/-- The ranges of a query: those of its name and of the colon behind it, and that of its body. -/
def Query.spans (q : Query) : List Span :=
  q.name.toList.flatMap (fun n => [⟨n.start, n.stop⟩, ⟨n.stop, n.stop + 1⟩])
    ++ [⟨q.body.start, q.body.stop⟩]

/-- The ranges of a document, in order. -/
def QueryDocument.spans (d : QueryDocument) : List Span :=
  d.domain.toList.map (fun s => ⟨s.start, s.stop⟩) ++ d.queries.flatMap Query.spans

theorem Query.OfSection.tiles {q : Query} {start : Nat} {s : Section} (h : q.OfSection start s)
    (hcolon : s.colon.width = 1) : Tiles start s.tokens q.spans := by
  have hname : Tiles start [s.name] [⟨start, start + s.name.width⟩] :=
    .ofTile (Span.covers_token start s.name)
  have hmark : Tiles (start + s.name.width) [s.colon]
      [⟨start + s.name.width, start + s.name.width + 1⟩] := by
    rw [← hcolon]
    exact .ofTile (Span.covers_token _ s.colon)
  have hblank : Tiles (start + s.name.width + s.colon.width) (s.body.takeWhile Token.isBlank) [] :=
    .ofGap fun t ht => List.mem_takeWhile_imp ht
  have hbody := hblank.append (.ofTile h.body.covers)
  rw [List.takeWhile_append_dropWhile] at hbody
  have hall := hname.append (hmark.append hbody)
  rw [Query.spans, h.name_eq]
  exact hall

/-- The name and the body of a query are parts of any text that the section stands in. -/
theorem Query.OfSection.slices {q : Query} {start : Nat} {s : Section} (h : q.OfSection start s)
    (before after : List Token) (hstart : start = tokensWidth before) :
    Text.slice? (tokensText (before ++ (s.tokens ++ after))) start (start + s.name.width)
        = some s.name.text ∧
      Text.slice? (tokensText (before ++ (s.tokens ++ after))) q.body.start q.body.stop
        = some q.body.text := by
  constructor
  · have hname := slice?_tokensText before [s.name] (s.colon :: (s.body ++ after)) hstart rfl
    simpa [tokensWidth, Section.tokens] using hname
  · have hbody := h.body.slice?_eq
      (before ++ s.name :: s.colon :: s.body.takeWhile Token.isBlank) after
      (by simp [hstart, tokensWidth_append, tokensWidth, Nat.add_assoc])
    have hrow : s.body.takeWhile Token.isBlank ++ (s.body.dropWhile Token.isBlank ++ after)
        = s.body ++ after := by
      rw [← List.append_assoc, List.takeWhile_append_dropWhile]
    rwa [List.append_assoc, List.cons_append, List.cons_append, hrow] at hbody

theorem tiles_sections {before : List Token} {sections : List Section} {queries : List Query}
    (h : List.Forall₂ (fun x q => Query.OfSection q (tokensWidth x.1) x.2)
      (sectionsAfter before sections) queries)
    (hcolons : ∀ s ∈ sections, s.colon.width = 1) :
    Tiles (tokensWidth before) (sections.flatMap Section.tokens) (queries.flatMap Query.spans) := by
  induction sections generalizing before queries with
  | nil =>
      cases h
      exact .nil _
  | cons s rest ih =>
      cases h with
      | cons hq hrest =>
          obtain ⟨hcolon, hcolons⟩ := List.forall_mem_cons.1 hcolons
          have hlater := ih hrest hcolons
          rw [tokensWidth_append] at hlater
          exact (hq.tiles hcolon).append hlater

theorem QueryDocument.OfSections.tiles {d : QueryDocument} {run : List Token}
    {sections : List Section} (h : d.OfSections run sections)
    (hcolons : ∀ s ∈ sections, s.colon.width = 1) :
    Tiles 0 (run ++ sections.flatMap Section.tokens) d.spans := by
  have hqueries := tiles_sections h.queries hcolons
  have hblank : Tiles 0 (run.takeWhile Token.isBlank) [] :=
    .ofGap fun t ht => List.mem_takeWhile_imp ht
  have hrun : Tiles 0 run (d.domain.toList.map fun s => ⟨s.start, s.stop⟩) := by
    have hrow := List.takeWhile_append_dropWhile (p := Token.isBlank) (l := run)
    rcases h.domain with ⟨hsolid, hnone⟩ | ⟨s, hsome, htrims⟩
    · rw [hsolid, List.append_nil] at hrow
      rw [hrow] at hblank
      rw [hnone]
      exact hblank
    · have hall := hblank.append (by rw [Nat.zero_add]; exact .ofTile htrims.covers)
      rw [hrow] at hall
      rw [hsome]
      exact hall
  exact hrun.append (by rw [Nat.zero_add]; exact hqueries)

/-! ## What a document takes from its text -/

/-- Whether a document takes every part of a text once. -/
structure QueryDocument.Extracts (d : QueryDocument) (t : Text) : Prop where
  /-- Every name is the part of the text at its bytes, and there is one. -/
  names : ∀ q ∈ d.queries, ∀ n ∈ q.name,
    n.start < n.stop ∧ t.slice? n.start n.stop = some n.text
  /-- Every segment is the part of the text at its bytes. -/
  segments : ∀ s ∈ d.segments, s.start ≤ s.stop ∧ t.slice? s.start s.stop = some s.text
  /-- No range begins before those before it end. -/
  ordered : d.spans.Pairwise fun a b => a.stop ≤ b.start
  /-- Every token that is not blank stands in exactly one range. -/
  covered : ∀ p ∈ placeTokens 0 (tokenize t), p.token.isBlank = false →
    d.spans.countP (fun s => s.holds p.span) = 1
  /-- Where there are headers, the queries are theirs one by one, and each has the word of its
  header for a name. -/
  named : headers (tokenize t) ≠ [] →
    List.Forall₂ (fun i q => ∃ p ∈ (placeTokens 0 (tokenize t))[i]?,
      q.name = some ⟨p.token.text, p.start, p.span.stop⟩ ∧ isArgument p.token.text = false)
    (headers (tokenize t)) d.queries
  /-- Where there are none, there is no domain, and one query without a name unless all is
  blank. -/
  unnamed : headers (tokenize t) = [] → d.domain = none ∧
    ((∀ x ∈ tokenize t, x.isBlank = true) → d.queries = []) ∧
    ((∃ x ∈ tokenize t, x.isBlank = false) → ∃ body, d.queries = [⟨none, body⟩])

/-- What follows from either relation holds of all that is related on the right. -/
theorem forall_mem_of_forall₂ {α β : Type} {R : α → β → Prop} {P : β → Prop} {xs : List α}
    {ys : List β} (h : List.Forall₂ R xs ys) (hP : ∀ x ∈ xs, ∀ y, R x y → P y) :
    ∀ y ∈ ys, P y := by
  induction h with
  | nil => simp
  | @cons x y xs ys hxy hrest ih =>
      obtain ⟨hx, hxs⟩ := List.forall_mem_cons.1 hP
      exact List.forall_mem_cons.2 ⟨hx y hxy, ih hxs⟩

theorem map_snd_sectionsAfter (before : List Token) (sections : List Section) :
    (sectionsAfter before sections).map Prod.snd = sections := by
  induction sections generalizing before with
  | nil => rfl
  | cons s rest ih => rw [sectionsAfter, List.map_cons, ih]

/-- The name of a section is a header of the text, with the section's colon behind it. -/
theorem header_of_mem_sectionsAfter {ts : List Token} {x : List Token × Section}
    (h : x ∈ sectionsAfter (cutAtHeaders ts).1 (cutAtHeaders ts).2) :
    (∃ after, ts = x.1 ++ (x.2.tokens ++ after)) ∧ isArgument x.2.name.text = false ∧
      x.2.colon.kind = .comparison .colon := by
  obtain ⟨hmem, after, hrow⟩ := exists_of_mem_sectionsAfter h
  rw [cutAtHeaders, cutFrom_tokens] at hrow
  have hheader : x.1.length ∈ headers ts := by
    rw [headers_eq_map]
    exact List.mem_map_of_mem h
  obtain ⟨-, -, ⟨c, hc, hcolon⟩, -⟩ : HeaderAt ts x.1.length := by
    simpa [headers] using (List.mem_filter.1 hheader).2
  obtain rfl : x.2.colon = c := by simpa [hrow, Section.tokens] using hc
  exact ⟨⟨after, hrow⟩, (name_of_mem_cutFrom hmem).2.2, hcolon⟩

theorem width_eq_one_of_colon {t : Token} (h : t.IsLexeme) (hk : t.kind = .comparison .colon) :
    t.width = 1 := by
  rw [Token.width, h.text_eq_singleton (d := ':') rfl hk]
  rfl

theorem width_colon_of_mem_cutAtHeaders {t : Text} {s : Section}
    (hs : s ∈ (cutAtHeaders (tokenize t)).2) : s.colon.width = 1 := by
  rw [← map_snd_sectionsAfter (cutAtHeaders (tokenize t)).1 (cutAtHeaders (tokenize t)).2] at hs
  obtain ⟨x, hx, rfl⟩ := List.mem_map.1 hs
  obtain ⟨⟨after, hrow⟩, -, hcolon⟩ := header_of_mem_sectionsAfter hx
  have hmem : x.2.colon ∈ tokenize t := by simp [hrow, Section.tokens]
  exact width_eq_one_of_colon (isLexeme_of_mem_tokenize hmem) hcolon

theorem getElem?_placeTokens (start : Nat) (before : List Token) (t : Token) (after : List Token) :
    (placeTokens start (before ++ t :: after))[before.length]?
      = some ⟨t, start + tokensWidth before⟩ := by
  induction before generalizing start with
  | nil => rfl
  | cons b before ih =>
      rw [List.cons_append, placeTokens, List.length_cons, List.getElem?_cons_succ, ih,
        tokensWidth, Nat.add_assoc]

/-- Ranges that tile the tokens of a text are in order, and each token stands in one of them. -/
theorem Tiles.ordered_covered {t : Text} {spans : List Span} (h : Tiles 0 (tokenize t) spans) :
    (spans.Pairwise fun a b => a.stop ≤ b.start) ∧
      ∀ p ∈ placeTokens 0 (tokenize t), p.token.isBlank = false →
        spans.countP (fun s => s.holds p.span) = 1 :=
  ⟨h.pairwise, fun _ hp hblank =>
    h.countP_eq_one (fun _ hx => (isLexeme_of_mem_tokenize hx).width_pos) hp hblank⟩

namespace QueryDocument

variable {t : Text}

/-- The document of a text without headers has its one region for a query. -/
theorem extracts_of_region (hnone : headers (tokenize t) = []) :
    (ofTree (.node .program (regionTrees (tokenize t)))).Extracts t := by
  have hdoc := ofTree_of_queries_eq_nil (t := .node .program (regionTrees (tokenize t))) rfl
    (queries_regionTrees _ _)
  have htrims := Segment.trims_ofRegion .program (tokenize t) 0 []
  have hempty : (Tree.node .program (regionTrees (tokenize t))).trimmedText = []
      ↔ ∀ x ∈ tokenize t, x.isBlank = true :=
    htrims.text_eq_nil_iff fun x hx => isLexeme_of_mem_tokenize hx
  have hslice := htrims.slice?_eq [] [] rfl
  rw [List.nil_append, List.append_nil, tokensText_tokenize] at hslice
  by_cases hblank : ∀ x ∈ tokenize t, x.isBlank = true
  · have hdoc' : ofTree (.node .program (regionTrees (tokenize t))) = ⟨none, []⟩ := by
      rw [hdoc, if_pos (List.isEmpty_iff.2 (hempty.2 hblank))]
    have htiles : Tiles 0 (tokenize t) [] := .ofGap hblank
    rw [hdoc']
    exact {
      names := by simp
      segments := by simp [segments]
      ordered := htiles.ordered_covered.1
      covered := htiles.ordered_covered.2
      named := fun hsome => absurd hnone hsome
      unnamed := fun _ => ⟨rfl, fun _ => rfl, fun ⟨x, hx, hx'⟩ => by simp [hblank x hx] at hx'⟩ }
  · -- what is not blank is the body of the one query
    have htext : (Tree.node .program (regionTrees (tokenize t))).trimmedText ≠ [] :=
      mt hempty.1 hblank
    rw [hdoc, if_neg (by simpa using htext)]
    have htiles : Tiles 0 (tokenize t) [⟨_, _⟩] := .ofTile htrims.covers
    exact {
      names := by simp
      segments := by simpa [segments] using ⟨htrims.bounds.2.1, hslice⟩
      ordered := htiles.ordered_covered.1
      covered := htiles.ordered_covered.2
      named := fun hsome => absurd hnone hsome
      unnamed := fun _ => ⟨rfl, fun hall => absurd hall hblank, fun _ => ⟨_, rfl⟩⟩ }

/-- The document of a text with headers has their sections for queries. -/
theorem OfSections.extracts {d : QueryDocument}
    (h : d.OfSections (cutAtHeaders (tokenize t)).1 (cutAtHeaders (tokenize t)).2)
    (hsome : headers (tokenize t) ≠ []) : d.Extracts t := by
  have hlex : ∀ x ∈ tokenize t, x.IsLexeme := fun x hx => isLexeme_of_mem_tokenize hx
  have hheaders := headers_eq_map (tokenize t)
  have hcut : (cutAtHeaders (tokenize t)).1
      ++ (cutAtHeaders (tokenize t)).2.flatMap Section.tokens = tokenize t :=
    cutFrom_tokens true true _
  have hsections := fun x (hx : x ∈ sectionsAfter (cutAtHeaders (tokenize t)).1
    (cutAtHeaders (tokenize t)).2) => header_of_mem_sectionsAfter hx
  have hcolons : ∀ s ∈ (cutAtHeaders (tokenize t)).2, s.colon.width = 1 :=
    fun s hs => width_colon_of_mem_cutAtHeaders hs
  have htext : tokensText (tokenize t) = t := tokensText_tokenize t
  -- from here on only what was found of the cut is used
  generalize (cutAtHeaders (tokenize t)).1 = run at *
  generalize (cutAtHeaders (tokenize t)).2 = sections at *
  have htiles : Tiles 0 (tokenize t) d.spans := by
    rw [← hcut]
    exact h.tiles hcolons
  have hqueries := (List.forall₂_and_left _ _).2 ⟨hsections, h.queries⟩
  exact {
    names := by
      refine forall_mem_of_forall₂ h.queries fun x hx q hq n hn => ?_
      obtain ⟨⟨after, hrow⟩, -, -⟩ := hsections x hx
      rw [hq.name_eq, Option.mem_some_iff] at hn
      subst hn
      have hname : x.2.name ∈ tokenize t := by simp [hrow, Section.tokens]
      have hslice := (hq.slices x.1 after rfl).1
      rw [← hrow, htext] at hslice
      exact ⟨Nat.lt_add_of_pos_right (hlex _ hname).width_pos, hslice⟩
    segments := by
      refine List.forall_mem_append.2 ⟨?_, ?_⟩
      · intro s hs
        rcases h.domain with ⟨-, hnone⟩ | ⟨s', hsome, htrims⟩
        · simp [hnone] at hs
        · obtain rfl : s = s' := by simpa [hsome] using hs
          have hslice := htrims.slice?_eq _ (sections.flatMap Section.tokens) rfl
          rw [← List.append_assoc, List.takeWhile_append_dropWhile, hcut, htext] at hslice
          exact ⟨htrims.bounds.2.1, hslice⟩
      · rw [List.forall_mem_map]
        refine forall_mem_of_forall₂ h.queries fun x hx q hq => ?_
        obtain ⟨⟨after, hrow⟩, -, -⟩ := hsections x hx
        have hslice := (hq.slices x.1 after rfl).2
        rw [← hrow, htext] at hslice
        exact ⟨hq.body.bounds.2.1, hslice⟩
    ordered := htiles.ordered_covered.1
    covered := htiles.ordered_covered.2
    named := fun _ => by
      rw [hheaders]
      refine List.forall₂_map_left_iff.2 (hqueries.imp fun x q hboth => ?_)
      obtain ⟨⟨⟨after, hrow⟩, hname, -⟩, hq⟩ := hboth
      refine ⟨⟨x.2.name, tokensWidth x.1⟩, ?_, hq.name_eq, hname⟩
      have hget := getElem?_placeTokens 0 x.1 x.2.name (x.2.colon :: (x.2.body ++ after))
      rw [hrow]
      simpa [Section.tokens] using hget
    unnamed := fun hnone => absurd hnone hsome }

/-- **The document of a text takes every part of it once.** Whatever is wrong with the text, its
names and segments are parts of it in order, each at its bytes, and every token that is not blank
stands in exactly one of them or is the colon behind a name. Each header names a query, in order,
and a text without headers is one query or all blank. -/
theorem extracts_parse (t : Text) : (ofTree (parse t)).Extracts t := by
  rcases parse_cases t with ⟨hparse, hnone⟩ | ⟨run, sections, hcut, hne, hsome, hrun, hparse⟩
  · rw [hparse]
    exact extracts_of_region hnone
  · have hdoc := ofSections_ofTree hne hrun
    rw [hparse]
    exact OfSections.extracts (by rwa [hcut]) hsome

/-- A text with a header inside a clause that is never closed, and one without headers. -/
theorem extracts_parse_samples :
    headers (tokenize "x\none: (a\ntwo: b".toList) ≠ [] ∧
      (ofTree (parse "x\none: (a\ntwo: b".toList)).queries.length = 2 ∧
      headers (tokenize " (a".toList) = [] ∧ (∃ x ∈ tokenize " (a".toList, x.isBlank = false) ∧
      ∃ body, (ofTree (parse " (a".toList)).queries = [⟨none, body⟩] := by
  have hsome : headers (tokenize "x\none: (a\ntwo: b".toList) = [2, 8] := by decide +kernel
  have hnone : headers (tokenize " (a".toList) = [] := by decide +kernel
  have hsolid : ∃ x ∈ tokenize " (a".toList, x.isBlank = false := by decide +kernel
  have hqueries := ((extracts_parse _).named (by rw [hsome]; simp)).length_eq
  rw [hsome] at hqueries
  exact ⟨by rw [hsome]; simp, hqueries.symm, hnone, hsolid,
    ((extracts_parse _).unnamed hnone).2.2 hsolid⟩

end QueryDocument

end CardQuery
