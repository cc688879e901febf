import CardQuery.Proofs.Parse.DescentRegion
import CardQuery.Proofs.Parse.Recut

/-!
# Texts by recursive descent

Where a header stands is marked before anything is read, and the marks are where the text is cut.
So what stands before the first header and the body of each query are regions with a header or the
end of the text behind them, and each is read to its end.

Main statement: a text is read to its end, and its tree is built (`program_reader`).
-/

set_option autoImplicit false

namespace CardQuery

open CardQuery.Tree (widthOf)

/-! ## The marks of a text -/

/-- The marks of a row, when `first` and `atLine` tell what stands before it. -/
def marksFrom (first atLine : Bool) (start : Nat) : List Token → List MarkedToken
  | [] => []
  | t :: ts =>
    ⟨⟨t, start⟩, atLine && isHeader t ts⟩
      :: marksFrom false (startsLine first t) (start + t.width) ts

theorem zipWith_headersFrom (first atLine : Bool) (start : Nat) (ts : List Token) :
    List.zipWith MarkedToken.mk (placeTokens start ts)
        ((List.range ts.length).map fun i => decide (i ∈ headersFrom first atLine ts))
      = marksFrom first atLine start ts := by
  induction ts generalizing first atLine start with
  | nil => rfl
  | cons t ts ih =>
      rw [List.length_cons, List.range_succ_eq_map, List.map_cons, List.map_map, placeTokens,
        List.zipWith_cons_cons, marksFrom, ← ih]
      by_cases hheader : (atLine && isHeader t ts) = true <;>
        simp [headersFrom, hheader, Function.comp_def]

theorem marks_eq_marksFrom (ts : List Token) : marks ts = marksFrom true true 0 ts := by
  rw [← zipWith_headersFrom, marks]
  simp only [mem_headers_iff]

/-- The marks of sections, the first of which begins at a byte. -/
def sectionMarks (start : Nat) : List Section → List MarkedToken
  | [] => []
  | s :: later =>
    ⟨⟨s.name, start⟩, true⟩ :: unmarked (start + s.name.width) (s.colon :: s.body)
      ++ sectionMarks (start + tokensWidth s.tokens) later

/-- **The header marks are where the text is cut.** -/
theorem marksFrom_eq (first atLine : Bool) (start : Nat) (ts : List Token) :
    marksFrom first atLine start ts
      = unmarked start (cutFrom first atLine ts).1
        ++ sectionMarks (start + tokensWidth (cutFrom first atLine ts).1)
          (cutFrom first atLine ts).2 := by
  induction ts generalizing first atLine start with
  | nil => rfl
  | cons t ts ih =>
      rcases hcut : cutFrom false (startsLine first t) ts with ⟨run, sections⟩
      have hlater := ih false (startsLine first t) (start + t.width)
      rw [hcut] at hlater
      rw [marksFrom, hlater]
      cases run with
      | nil =>
          -- the next token begins a section, so this one is no header
          have hheader : (atLine && isHeader t ts) = false := by
            rw [Bool.eq_false_iff]
            intro hheader
            obtain ⟨colon, body, hrun⟩ := cutFrom_ne_nil_of_isHeader
              (Bool.and_eq_true_iff.1 hheader).2 false (startsLine first t)
            rw [hcut] at hrun
            cases hrun
          rw [cutFrom, hcut, hheader]
          simp [unmarked, placeTokens, tokensWidth]
      | cons colon body =>
          by_cases hheader : (atLine && isHeader t ts) = true
          · simp [cutFrom, hcut, hheader, sectionMarks, Section.tokens, tokensWidth, unmarked,
              placeTokens, Nat.add_assoc]
          · simp [cutFrom, hcut, hheader, tokensWidth, unmarked, placeTokens, Nat.add_assoc]

theorem map_token_sectionMarks (start : Nat) (sections : List Section) :
    (sectionMarks start sections).map MarkedToken.token = sections.flatMap Section.tokens := by
  induction sections generalizing start with
  | nil => rfl
  | cons s later ih =>
      rw [sectionMarks, List.map_append, List.map_cons, map_token_unmarked, ih]
      rfl

theorem map_placed_sectionMarks (start : Nat) (sections : List Section) :
    (sectionMarks start sections).map MarkedToken.placed
      = placeTokens start (sections.flatMap Section.tokens) := by
  induction sections generalizing start with
  | nil => rfl
  | cons s later ih =>
      rw [sectionMarks, List.map_append, List.map_cons, ih, List.flatMap_cons, placeTokens_append]
      simp [unmarked, Section.tokens, placeTokens, Function.comp_def]

/-! ## Sections -/

/-- Whether sections stand as they are cut: each has a word and a colon, and ends with a blank when
another follows. -/
def Headed : List Section → Prop
  | [] => True
  | s :: later =>
    s.name.kind = .word ∧ s.colon.kind = .comparison .colon ∧
      (later ≠ [] → ∀ b ∈ (s.colon :: s.body).getLast?, b.isBlank = true) ∧ Headed later

theorem headed_cutFrom (first atLine : Bool) (ts : List Token) :
    Headed (cutFrom first atLine ts).2 := by
  induction ts generalizing first atLine with
  | nil => trivial
  | cons t ts ih =>
      rcases hcut : cutFrom false (startsLine first t) ts with ⟨run, sections⟩
      have hlater := ih false (startsLine first t)
      have htokens := cutFrom_tokens false (startsLine first t) ts
      rw [hcut] at hlater htokens
      cases run with
      | nil => simpa [cutFrom, hcut] using hlater
      | cons colon body =>
          by_cases hheader : (atLine && isHeader t ts) = true
          · have hhead := (Bool.and_eq_true_iff.1 hheader).2
            simp only [← htokens, isHeader, List.cons_append, List.head?_cons, Option.any_some,
              Bool.and_eq_true, decide_eq_true_eq] at hhead
            simp only [cutFrom, hcut, hheader, if_true]
            refine ⟨hhead.1.1.1, hhead.1.1.2, fun hne b hb => ?_, hlater⟩
            obtain ⟨s, later, rfl⟩ := List.exists_cons_of_ne_nil hne
            rcases cutFrom_before_header hcut with ⟨hnil, -⟩ | ⟨before, c, hrun, hc⟩
            · cases hnil
            · simp only at hb
              rw [hrun, List.getLast?_concat] at hb
              obtain rfl : c = b := by simpa using hb
              exact hc
          · simpa [cutFrom, hcut, hheader] using hlater

/-- Whether sections are the last tokens of a text and begin at a byte. -/
structure SectionsAt (whole : List Token) (start : Nat) (sections : List Section) : Prop where
  wide : ∀ t ∈ whole, 0 < t.width
  around : ∃ before, whole = before ++ sections.flatMap Section.tokens ∧
    start = tokensWidth before
  headed : Headed sections

namespace SectionsAt

variable {whole : List Token} {start : Nat} {s : Section} {sections : List Section}

theorem tail (h : SectionsAt whole start (s :: sections)) :
    SectionsAt whole (start + tokensWidth s.tokens) sections where
  wide := h.wide
  around := by
    obtain ⟨before, hwhole, hstart⟩ := h.around
    exact ⟨before ++ s.tokens, by simp [hwhole], by rw [tokensWidth_append, hstart]⟩
  headed := h.headed.2.2.2

/-- Tokens before sections are the last of a region. -/
theorem holds {ts : List Token} (h : SectionsAt whole (start + tokensWidth ts) sections)
    (haround : ∃ before, whole = before ++ (ts ++ sections.flatMap Section.tokens) ∧
      start = tokensWidth before)
    (hedge : sections ≠ [] → ∀ b ∈ ts.getLast?, b.isBlank = true) :
    (Frame.mk whole (sectionMarks (start + tokensWidth ts) sections)).Holds start ts where
  wide := h.wide
  around := by rwa [map_token_sectionMarks]
  placed := by rw [map_placed_sectionMarks, map_token_sectionMarks]
  header m hm := by
    cases sections with
    | nil => cases hm
    | cons s later =>
        obtain rfl : ⟨⟨s.name, _⟩, true⟩ = m := by simpa [sectionMarks] using hm
        exact ⟨rfl, h.headed.1⟩
  edge hrest := hedge fun hnil => hrest (by rw [hnil]; rfl)

end SectionsAt

/-- The reader that has built some trees and has sections left. -/
def atSections (whole : List Token) (xs : List Tree) (sections : List Section) : Reader :=
  (Frame.mk whole (sectionMarks (widthOf xs) sections)).reader 0 0 [] xs []

/-- A region is read on from what is built before it. -/
theorem region_reader_behind {F : Frame} {xs : List Tree} {ts : List Token} (limit : Nat)
    (h : F.Holds (0 + widthOf xs) ts) (hlimit : 5 * ts.length + 1 ≤ limit) :
    (F.reader 0 0 [] xs ts).region limit
      = some (regionTrees ts, F.reader 0 0 [] (xs ++ regionTrees ts) []) :=
  Frame.result_behind (region_reader h hlimit)

section Queries

variable {whole : List Token} {xs : List Tree} {s : Section} {sections : List Section} {limit : Nat}

theorem width_section (s : Section) : s.tree.width = tokensWidth s.tokens :=
  Tree.width_of_text s.text_tree

/-- Nothing is wrong with an outer node itself. -/
theorem reader_outer {F : Frame} {d o : Nat} {e : List Remark} {k : NodeKind} {cs : List Tree}
    {ts : List Token} (hk : k.isOuter = true) :
    F.reader d o e (xs ++ [.node k cs]) ts = F.reader d o e (xs ++ cs) ts := by
  refine Frame.reader_congr ?_ fun start => ?_
  · simp [widthOf, Tree.width]
  · rw [problemsOf_cons, problemsFrom_outer start hk, problemsOf_nil, List.append_nil]

theorem reader_program (F : Frame) (cs : List Tree) :
    F.reader 0 0 [] [.node .program cs] [] = F.reader 0 0 [] cs [] :=
  (reader_outer rfl : F.reader 0 0 [] ([] ++ [.node .program cs]) [] = _)

/-- The reader behind the name of a query. -/
theorem queryName_reader : (atSections whole xs (s :: sections)).tokenNode .queryName
    = ([.leaf .queryName s.name],
      (Frame.mk whole (sectionMarks (widthOf xs + tokensWidth s.tokens) sections)).reader 0 0 []
        (xs ++ [.leaf .queryName s.name]) (s.colon :: s.body)) := by
  rw [Tree.leaf, reader_outer rfl]
  simp [atSections, Frame.reader, Reader.tokenNode, Reader.bump, sectionMarks, unmarked,
    placeTokens, Tree.widthOf_append, widthOf, Tree.width, MarkedToken.token, Frame.shown]

/-- What is built before the region of a query. -/
def builtHeader (xs : List Tree) (s : Section) : List Tree :=
  withBlanks (xs ++ [.leaf .queryName s.name] ++ [.token s.colon]) s.body

/-- The tree of a query adds nothing to what is built of it. -/
theorem reader_section (F : Frame) : F.reader 0 0 [] (xs ++ [s.tree]) []
    = F.reader 0 0 [] (builtHeader xs s ++ regionTrees (s.body.dropWhile Token.isBlank)) [] := by
  have hbody : F.reader 0 0 [] (builtHeader xs s
        ++ [.node .queryBody (regionTrees (s.body.dropWhile Token.isBlank))]) []
      = F.reader 0 0 [] (builtHeader xs s ++ regionTrees (s.body.dropWhile Token.isBlank)) [] :=
    reader_outer rfl
  rw [Section.tree, reader_outer rfl, ← hbody]
  simp [builtHeader, withBlanks]

/-- The tokens behind the name of a query are the last of a region. -/
theorem SectionsAt.holds_name (h : SectionsAt whole (widthOf xs) (s :: sections)) :
    (Frame.mk whole (sectionMarks (widthOf xs + tokensWidth s.tokens) sections)).Holds
      (0 + widthOf (xs ++ [.leaf .queryName s.name])) (s.colon :: s.body) := by
  obtain ⟨before, hwhole, hstart⟩ := h.around
  have htail := h.tail
  rw [Section.tokens, tokensWidth, ← Nat.add_assoc] at htail
  rw [Nat.zero_add, Section.tokens, tokensWidth, ← Nat.add_assoc]
  have hwidth : widthOf (xs ++ [Tree.leaf .queryName s.name]) = widthOf xs + s.name.width := by
    simp [Tree.widthOf_append, widthOf, Tree.width_leaf]
  rw [hwidth]
  refine htail.holds ⟨before ++ [s.name], ?_, ?_⟩ h.headed.2.2.1
  · simp [hwhole, Section.tokens]
  · simp [tokensWidth_append, tokensWidth, hstart]

/-- A query is read up to the next header. -/
theorem query_reader (h : SectionsAt whole (widthOf xs) (s :: sections))
    (hlimit : 5 * s.body.length + 1 ≤ limit) :
    (atSections whole xs (s :: sections)).query limit
      = some ([s.tree], atSections whole (xs ++ [s.tree]) sections) := by
  have hcolon : s.colon.kind = .comparison .colon := h.headed.2.1
  have hbehind := h.holds_name.cons
  rw [Nat.add_assoc, ← show widthOf [Tree.token s.colon] = s.colon.width by
    simp [widthOf, Tree.width], ← Tree.widthOf_append] at hbehind
  have hlength := (List.dropWhile_sublist Token.isBlank (l := s.body)).length_le
  have hbody := region_reader_behind limit (holds_withBlanks hbehind) (by omega)
  have htokens : widthOf (xs ++ [s.tree]) = widthOf xs + tokensWidth s.tokens := by
    simp [Tree.widthOf_append, widthOf, width_section]
  rw [Reader.query, queryName_reader]
  simp only [Frame.kind?_reader_cons, hcolon, if_true, Frame.bump_reader,
    Frame.skipBlanks_reader hbehind]
  rw [withBlanks] at hbody
  rw [hbody, atSections, htokens, reader_section]
  rfl

theorem queries_reader (h : SectionsAt whole (widthOf xs) sections)
    (hlimit : 5 * (sections.flatMap Section.tokens).length + 1 ≤ limit) :
    (atSections whole xs sections).queries limit
      = some (sections.map Section.tree,
          atSections whole (xs ++ sections.map Section.tree) []) := by
  induction sections generalizing xs limit with
  | nil =>
      obtain ⟨l, rfl, -⟩ := exists_limit hlimit
      simp [Reader.queries, Reader.atEnd, atSections, Frame.reader, unmarked, placeTokens,
        sectionMarks]
  | cons s later ih =>
      obtain ⟨l, rfl, hl⟩ := exists_limit hlimit
      rw [List.flatMap_cons, List.length_append, Section.tokens, List.length_cons,
        List.length_cons] at hl
      have hword : s.name.isBlank = false := isBlank_of_kind h.headed.1 (by decide)
      have hblanks : (atSections whole xs (s :: later)).skipBlanks
          = ([], atSections whole xs (s :: later)) := by
        simp [Reader.skipBlanks, Reader.bumpWhile, atSections, Frame.reader, unmarked, placeTokens,
          sectionMarks, MarkedToken.token, hword]
      have hheader : (atSections whole xs (s :: later)).atHeader = true := by
        simp [Reader.atHeader, atSections, Frame.reader, unmarked, placeTokens, sectionMarks]
      have hend : (atSections whole xs (s :: later)).atEnd = false := by
        simp [Reader.atEnd, atSections, Frame.reader, unmarked, placeTokens, sectionMarks]
      have hquery : (atSections whole xs (s :: later)).query l
          = some ([s.tree], atSections whole (xs ++ [s.tree]) later) := query_reader h (by omega)
      have htail : SectionsAt whole (widthOf (xs ++ [s.tree])) later := by
        simpa [Tree.widthOf_append, widthOf, width_section] using h.tail
      have hqueries : (atSections whole (xs ++ [s.tree]) later).queries l = _ :=
        ih htail (by omega)
      rw [Reader.queries, hend, hblanks]
      simp only [Reader.nextQuery, hheader, if_true, Bool.false_eq_true, if_false, hquery, hqueries,
        Option.bind_eq_bind, Option.bind_some]
      simp

end Queries

/-! ## Programs -/

section Program

variable {ts run : List Token} {sections : List Section} {limit : Nat}

/-- The reader at the start of a text. -/
theorem start_reader (hcut : cutAtHeaders ts = (run, sections)) :
    Reader.mk (marks ts) 0 (tokensWidth ts) []
      = (Frame.mk ts (sectionMarks (tokensWidth run) sections)).reader 0 0 [] [] run := by
  have hmarks := marksFrom_eq true true 0 ts
  rw [cutAtHeaders] at hcut
  rw [hcut, ← marks_eq_marksFrom, Nat.zero_add] at hmarks
  simp [Frame.reader, hmarks, widthOf]

theorem holds_start (hwide : ∀ t ∈ ts, 0 < t.width) (hcut : cutAtHeaders ts = (run, sections)) :
    SectionsAt ts (tokensWidth run) sections ∧
      (Frame.mk ts (sectionMarks (tokensWidth run) sections)).Holds 0 run := by
  have htokens := cutFrom_tokens true true ts
  have hheaded := headed_cutFrom true true ts
  rw [cutAtHeaders] at hcut
  rw [hcut] at htokens hheaded
  have hsections : SectionsAt ts (tokensWidth run) sections :=
    ⟨hwide, ⟨run, htokens.symm, rfl⟩, hheaded⟩
  refine ⟨hsections, ?_⟩
  rw [← Nat.zero_add (tokensWidth run)] at hsections ⊢
  refine hsections.holds ⟨[], htokens.symm, rfl⟩ fun hne b hb => ?_
  obtain ⟨s, later, rfl⟩ := List.exists_cons_of_ne_nil hne
  rcases cutFrom_before_header hcut with ⟨rfl, -⟩ | ⟨before, c, rfl, hc⟩
  · cases hb
  · obtain rfl : c = b := by simpa using hb
    exact hc

/-- What stands before the first header is read up to it. -/
theorem exists_domain_reader {F : Frame} (limit : Nat) (h : F.Holds 0 run) (hrest : F.rest ≠ [])
    (hlimit : 5 * run.length + 1 ≤ limit) :
    ∃ trees, withBlanks [] run ++ trees = domainTrees run ∧
      (F.reader 0 0 [] (withBlanks [] run) (run.dropWhile Token.isBlank)).domain limit
        = some (trees, F.reader 0 0 [] (domainTrees run) []) := by
  have hblanks := (blanks_region (d := 0) [] h).1
  have hlength := (List.dropWhile_sublist Token.isBlank (l := run)).length_le
  cases hsolid : run.dropWhile Token.isBlank with
  | nil =>
      have hdomain : domainTrees run = withBlanks [] run := by
        simp [domainTrees, hsolid, withBlanks]
      have hheader : (F.reader 0 0 [] (withBlanks [] run) []).atHeader = true := by
        obtain ⟨m, rest, hm⟩ := List.exists_cons_of_ne_nil hrest
        have hmark := (h.header m (by simp [hm])).1
        simp [Reader.atHeader, Frame.reader, unmarked, placeTokens, hm, hmark]
      refine ⟨[], by simp [hdomain], ?_⟩
      rw [Reader.domain, if_pos hheader, hdomain]
  | cons t solid =>
      have hdomain : domainTrees run
          = withBlanks [] run ++ [.node .domain (regionTrees (t :: solid))] := by
        simp [domainTrees, hsolid, withBlanks]
      rw [hsolid] at hblanks hlength
      refine ⟨[.node .domain (regionTrees (t :: solid))], hdomain.symm, ?_⟩
      rw [Reader.domain, Frame.atHeader_reader_cons, if_neg Bool.false_ne_true,
        region_reader_behind limit hblanks (by omega), hdomain, reader_outer rfl]
      rfl

/-- **A text is read to its end**, and the tree of its tokens is built. -/
theorem program_reader (hwide : ∀ t ∈ ts, 0 < t.width) (hlimit : 5 * ts.length + 1 ≤ limit) :
    Reader.program limit ⟨marks ts, 0, tokensWidth ts, []⟩
      = some (parseTokens ts, (Frame.mk ts []).reader 0 0 [] [parseTokens ts] []) := by
  rcases hcut : cutAtHeaders ts with ⟨run, sections⟩
  obtain ⟨hsections, hrun⟩ := holds_start hwide hcut
  have htokens : run ++ sections.flatMap Section.tokens = ts := by
    have hall := cutFrom_tokens true true ts
    rw [cutAtHeaders] at hcut
    rwa [hcut] at hall
  have hlength := congrArg List.length htokens
  rw [List.length_append] at hlength
  rw [start_reader hcut]
  cases sections with
  | nil =>
      have htree : parseTokens ts = .node .program (regionTrees run) := by rw [parseTokens, hcut]
      have hheader : ((Frame.mk ts []).reader 0 0 [] [] run).ahead.any MarkedToken.header
          = false := by
        simp [Frame.reader, unmarked]
      have hregion : Reader.region limit _ = _ := region_reader (e := []) hrun (by omega)
      rw [htree, Reader.program, sectionMarks, hheader, if_neg Bool.false_ne_true, reader_program]
      rw [sectionMarks] at hregion
      rw [hregion]
      rfl
  | cons s later =>
      have htree : parseTokens ts
          = .node .program (domainTrees run ++ (s :: later).map Section.tree) := by
        rw [parseTokens, hcut]
      have hheader : ((Frame.mk ts (sectionMarks (tokensWidth run) (s :: later))).reader 0 0 [] []
          run).ahead.any MarkedToken.header = true := by
        simp [Frame.reader, sectionMarks]
      obtain ⟨trees, htrees, hdomain⟩ := exists_domain_reader limit hrun
        (by simp [sectionMarks]) (by omega)
      have hrest : SectionsAt ts (widthOf (domainTrees run)) (s :: later) := by
        rwa [widthOf_domainTrees]
      have hqueries : Reader.queries limit _ = _ := queries_reader hrest (by omega)
      rw [atSections, widthOf_domainTrees] at hqueries
      rw [Reader.program, hheader, if_pos rfl, (blanks_region [] hrun).2]
      simp only [hdomain, hqueries, Option.bind_eq_bind, Option.bind_some]
      rw [htree, reader_program, htrees]
      rfl

end Program

end CardQuery
