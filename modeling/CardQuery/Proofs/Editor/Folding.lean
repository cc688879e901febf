import CardQuery.Editor.Fold
import CardQuery.Proofs.Editor.Positions
import CardQuery.Proofs.Tree.Preorder

/-!
# Folds are the groups of several lines

A clause or a query is folded when the lines of its ends differ, blanks aside. Between the two ends
stands its trimmed text, so they differ just when there is a newline in that. A place holds the
tokens of every place in it, so the range of a group that is in another is in the range of that one,
and of two groups side by side the second starts where the first has ended.

Main statement: the folds of a text are those of its groups with a newline, in order, and two of
them are nested or share one line at most (`Tree.foldsGroups_folds`).
-/

set_option autoImplicit false

namespace CardQuery

/-! ## Newlines between two bytes -/

namespace Text

theorem count_newline_bytes (t : Text) : t.bytes.count newline = t.count '\n' := by
  induction t with
  | nil => rfl
  | cons c cs ih =>
      rw [bytes_cons, List.count_append, ih, List.count_cons]
      by_cases hc : c = '\n'
      · subst hc
        rw [if_pos (by simp), Nat.add_comm]
        rfl
      · rw [List.count_eq_zero.2 (newline_notMem_utf8EncodeChar hc), if_neg (by simpa using hc),
          Nat.zero_add, Nat.add_zero]

theorem newlinesBefore_append (before after : Text) :
    newlinesBefore (before ++ after) before.width = before.count '\n' := by
  rw [newlinesBefore, bytes_append, ← length_bytes, List.take_left, count_newline_bytes]

end Text

/-- A range that holds a part of a text stands behind what comes before the part. -/
theorem Span.Holds.exists_append {s : Span} {t part : Text} (h : s.Holds t part) :
    ∃ before after, t = before ++ (part ++ after) ∧ s.start = before.width ∧
      s.stop = s.start + part.width := by
  have hslice := h.slice?_eq
  rw [Text.slice?, if_pos h.start_le_stop, Option.bind_eq_some_iff] at hslice
  obtain ⟨⟨before, rest⟩, hbefore, hpart⟩ := hslice
  obtain ⟨⟨inner, after⟩, hafter, hinner⟩ := Option.map_eq_some_iff.1 hpart
  obtain rfl : inner = part := hinner
  obtain ⟨rfl, hstart⟩ := Text.splitAtWidth?_eq_some hbefore
  obtain ⟨rfl, hstop⟩ := Text.splitAtWidth?_eq_some hafter
  have hle := h.start_le_stop
  exact ⟨before, after, rfl, hstart.symm, by omega⟩

/-- From one end of a range to the other there are as many newlines as in its text. -/
theorem Span.Holds.newlinesBefore_stop {s : Span} {t part : Text} (h : s.Holds t part) :
    t.newlinesBefore s.stop = t.newlinesBefore s.start + part.count '\n' := by
  obtain ⟨before, after, rfl, hstart, hstop⟩ := h.exists_append
  have hall := Text.newlinesBefore_append (before ++ part) after
  rw [Text.width_append, ← hstart, ← hstop, List.append_assoc, List.count_append] at hall
  rw [hall, hstart, Text.newlinesBefore_append]

/-! ## Trimmed ranges of places in places -/

/-- The tokens of a place stand among those of any place around it. -/
theorem Focus.StandsIn.exists_around_of_mem_ancestors {whole : Tree} {f g : Focus}
    (h : g.StandsIn whole) (hf : f ∈ g.ancestors) : ∃ before after : List Token,
      f.tree.tokens = before ++ (g.tree.tokens ++ after) ∧
        g.start = f.start + tokensWidth before := by
  rcases g with ⟨t, start, above⟩
  have hstands : Stands whole t start above := h
  have hmem : f ∈ ancestorsFrom t above := hf
  clear h hf
  induction hstands with
  | root => cases hmem
  | @child t start s above hstart _ ih =>
      have hparent : start = s.start + tokensWidth (Tree.tokensOf s.before) := by
        rw [Tree.tokensWidth_tokensOf, hstart]
      have htokens : (s.fill t).tokens
          = Tree.tokensOf s.before ++ (t.tokens ++ Tree.tokensOf s.after) := by
        simp [Step.fill]
      rcases List.mem_cons.1 hmem with rfl | hmem
      · exact ⟨_, _, htokens, hparent⟩
      · obtain ⟨before, after, houter, hbegin⟩ := ih hmem
        refine ⟨before ++ Tree.tokensOf s.before, Tree.tokensOf s.after ++ after, ?_, ?_⟩
        · rw [houter]
          simp only [htokens, List.append_assoc]
        · simp only at hbegin ⊢
          rw [hparent, hbegin, tokensWidth_append, Nat.add_assoc]

namespace Focus

/-- The trimmed range holds every token of a place that is not blank. -/
theorem trimmedSpan_covers {f : Focus} {p : PlacedToken}
    (hp : p ∈ placeTokens f.start f.tree.tokens) (hblank : p.token.isBlank = false) :
    f.trimmedSpan.start ≤ p.start ∧ p.span.stop ≤ f.trimmedSpan.stop := by
  have hspan := f.trimmedSpan_eq
  have htrims : (Segment.ofRegion f).Trims f.start f.tree.tokens :=
    ⟨rfl, congrArg Span.start hspan, by simp only [Segment.ofRegion, hspan]⟩
  exact htrims.holds hp hblank

/-- It begins with such a token and ends with one, when there is any. -/
theorem exists_ends_trimmedSpan {f : Focus} (h : trimTokens f.tree.tokens ≠ []) :
    ∃ first ∈ placeTokens f.start f.tree.tokens, ∃ last ∈ placeTokens f.start f.tree.tokens,
      first.token.isBlank = false ∧ last.token.isBlank = false ∧
        f.trimmedSpan = ⟨first.start, last.span.stop⟩ := by
  obtain ⟨trail, hrow, -, -⟩ := exists_trail f.tree.tokens
  obtain ⟨hhead, hlast⟩ := trimTokens_ends f.tree.tokens
  obtain ⟨⟨first, hfirst, hstart⟩, last, hlast, hstop⟩ := ends_filter_placeTokens h hhead hlast
    (f.start + tokensWidth (leadTokens f.tree.tokens))
  have hplaced : ∀ p ∈ placeTokens (f.start + tokensWidth (leadTokens f.tree.tokens))
      (trimTokens f.tree.tokens), p ∈ placeTokens f.start f.tree.tokens := by
    intro p hp
    rw [hrow, placeTokens_append, placeTokens_append]
    exact List.mem_append_right _ (List.mem_append_left _ hp)
  obtain ⟨hfirst, hfirstSolid⟩ := List.mem_filter.1 (List.mem_of_head? hfirst)
  obtain ⟨hlast, hlastSolid⟩ := List.mem_filter.1 (List.mem_of_getLast? hlast)
  refine ⟨first, hplaced first hfirst, last, hplaced last hlast, by simpa using hfirstSolid,
    by simpa using hlastSolid, ?_⟩
  rw [f.trimmedSpan_eq, hstart, hstop]

/-- **The trimmed range of a place is in that of any place around it.** -/
theorem StandsIn.trimmedSpan_of_mem_ancestors {whole : Tree} {f g : Focus} (h : g.StandsIn whole)
    (hf : f ∈ g.ancestors) (hsolid : trimTokens g.tree.tokens ≠ []) :
    f.trimmedSpan.start ≤ g.trimmedSpan.start ∧ g.trimmedSpan.stop ≤ f.trimmedSpan.stop := by
  obtain ⟨before, after, htokens, hstart⟩ := h.exists_around_of_mem_ancestors hf
  have hplaced : ∀ p ∈ placeTokens g.start g.tree.tokens,
      p ∈ placeTokens f.start f.tree.tokens := by
    intro p hp
    rw [htokens, placeTokens_append, placeTokens_append, ← hstart]
    exact List.mem_append_right _ (List.mem_append_left _ hp)
  obtain ⟨first, hfirst, last, hlast, hfirstSolid, hlastSolid, hspan⟩ :=
    exists_ends_trimmedSpan hsolid
  rw [hspan]
  exact ⟨(trimmedSpan_covers (hplaced first hfirst) hfirstSolid).1,
    (trimmedSpan_covers (hplaced last hlast) hlastSolid).2⟩

end Focus

/-! ## Groups of several lines -/

/-- What a fold is made of. -/
def FoldKind.nodeKind : FoldKind → NodeKind
  | .clause => .clause
  | .query => .query

/-- Whether a place is a clause or a query with a newline between the blanks at its ends. -/
def Focus.isMultiline (f : Focus) : Bool :=
  (f.tree.isKind .clause || f.tree.isKind .query) && decide ('\n' ∈ f.tree.trimmedText)

/-- The clauses and queries of a tree that have a newline between the blanks at their ends, in
preorder. -/
def Tree.multilineGroups (t : Tree) : List Focus :=
  t.nodes.filter Focus.isMultiline

/-- Whether a fold goes from the first line of a group to its last, blanks at its ends aside. -/
structure Fold.IsOf (fold : Fold) (t : Text) (group : Focus) : Prop where
  kind : group.tree.kind? = some fold.kind.nodeKind
  startLine : fold.startLine = t.newlinesBefore group.trimmedSpan.start
  endLine : fold.endLine = t.newlinesBefore group.trimmedSpan.stop

theorem NodeKind.foldKind?_eq_some_iff {k : NodeKind} {kind : FoldKind} :
    k.foldKind? = some kind ↔ k = kind.nodeKind := by
  cases kind <;> cases k <;> simp [foldKind?, FoldKind.nodeKind]

theorem Focus.isKind_of_isMultiline {f : Focus} (h : f.isMultiline = true) :
    ∃ kind : FoldKind, f.tree.kind? = some kind.nodeKind := by
  rw [isMultiline, Bool.and_eq_true, Bool.or_eq_true] at h
  rcases h.1 with h | h
  · exact ⟨.clause, of_decide_eq_true h⟩
  · exact ⟨.query, of_decide_eq_true h⟩

namespace Focus.StandsIn

variable {t : Text} {f : Focus} (h : f.StandsIn (parse t))
include h

/-- A trimmed range ends in a later line than it begins just when there is a newline in it. -/
theorem line_lt_line_iff :
    t.newlinesBefore f.trimmedSpan.start < t.newlinesBefore f.trimmedSpan.stop
      ↔ '\n' ∈ f.tree.trimmedText := by
  rw [h.trimmedSpan_holds.newlinesBefore_stop, Nat.lt_add_right_iff_pos, List.count_pos_iff]
  rfl

/-- A place is folded when it is a group of several lines, and then from its first to its last. -/
theorem fold?_eq_some_iff {fold : Fold} :
    f.fold? (.ofText t) = some fold ↔ f.isMultiline = true ∧ fold.IsOf t f := by
  have hline : ∀ n ≤ t.width, ((LineIndex.ofText t).position n).line = t.newlinesBefore n := by
    intro n hn
    rw [LineIndex.line_position, Nat.min_eq_left hn]
  have hholds := h.trimmedSpan_holds
  have hstart := hline _ (Nat.le_trans hholds.start_le_stop hholds.stop_le_width)
  have hstop := hline _ hholds.stop_le_width
  unfold fold?
  simp only [hstart, hstop]
  constructor
  · intro hfold
    obtain ⟨kind, hkind, hfold⟩ := Option.bind_eq_some_iff.1 hfold
    obtain ⟨k, hk, hfoldKind⟩ := Option.bind_eq_some_iff.1 hkind
    rw [NodeKind.foldKind?_eq_some_iff] at hfoldKind
    split at hfold
    · next hlines =>
        cases hfold
        have hgroup : (f.tree.isKind .clause || f.tree.isKind .query) = true := by
          cases kind <;> simp [Tree.isKind, hk, hfoldKind, FoldKind.nodeKind]
        refine ⟨?_, by rw [hk, hfoldKind], rfl, rfl⟩
        rw [isMultiline, hgroup, Bool.true_and]
        exact decide_eq_true (h.line_lt_line_iff.1 hlines)
    · cases hfold
  · rintro ⟨hmultiline, hkind, hfirst, hlast⟩
    have hlines := h.line_lt_line_iff.2
      (of_decide_eq_true (Bool.and_eq_true_iff.1 hmultiline).2)
    have hfoldKind := NodeKind.foldKind?_eq_some_iff.2 (rfl : fold.kind.nodeKind = _)
    simp only [hkind, Option.bind_some, hfoldKind, Option.bind_eq_bind, if_pos hlines]
    rw [← hfirst, ← hlast]

end Focus.StandsIn

/-- Picking some of a row and turning each into something gives one thing for each that is picked,
in order. -/
theorem List.forall₂_filterMap_filter {α β : Type} {f : α → Option β} {p : α → Bool}
    {R : β → α → Prop} {l : List α} (hnone : ∀ x ∈ l, p x = false → f x = none)
    (hsome : ∀ x ∈ l, p x = true → ∃ y, f x = some y ∧ R y x) :
    List.Forall₂ R (l.filterMap f) (l.filter p) := by
  induction l with
  | nil => exact .nil
  | cons x l ih =>
      have hrest := ih (fun y hy => hnone y (List.mem_cons_of_mem x hy))
        fun y hy => hsome y (List.mem_cons_of_mem x hy)
      cases hx : p x with
      | false =>
          rw [List.filterMap_cons_none (hnone x List.mem_cons_self hx),
            List.filter_cons_of_neg (by simp [hx])]
          exact hrest
      | true =>
          obtain ⟨y, hy, hR⟩ := hsome x List.mem_cons_self hx
          rw [List.filterMap_cons_some hy, List.filter_cons_of_pos hx]
          exact .cons hR hrest

/-! ## The main statement -/

/-- Whether folds are those of the groups of a text that have several lines. -/
structure Tree.FoldsGroups (t : Text) (folds : List Fold) : Prop where
  /-- There is one for each group, in preorder, and no other. -/
  groups : List.Forall₂ (fun fold group => fold.IsOf t group) folds (parse t).multilineGroups
  ordered : folds.Pairwise fun a b => a.startLine ≤ b.startLine
  lines : ∀ fold ∈ folds, fold.startLine < fold.endLine ∧
    fold.endLine < (LineIndex.ofText t).lineCount
  /-- A later one is in an earlier one, or has at most the last line of it. -/
  nested : folds.Pairwise fun a b =>
    (a.startLine ≤ b.startLine ∧ b.endLine ≤ a.endLine) ∨ a.endLine ≤ b.startLine

namespace Tree

variable {t : Text}

/-- The folds of two groups of a text, the second behind the first in preorder. -/
theorem folds_of_comesAfter {f g : Focus} (hf : f ∈ (parse t).focuses) (hg : g ∈ (parse t).focuses)
    (hafter : g.ComesAfter f) {a b : Fold} (ha : f.fold? (.ofText t) = some a)
    (hb : g.fold? (.ofText t) = some b) :
    (a.startLine ≤ b.startLine ∧ b.endLine ≤ a.endLine) ∨ a.endLine ≤ b.startLine := by
  have hstands := standsIn_of_mem_focuses hg
  obtain ⟨-, ha⟩ := (standsIn_of_mem_focuses hf).fold?_eq_some_iff.1 ha
  obtain ⟨hmultiline, hb⟩ := hstands.fold?_eq_some_iff.1 hb
  rw [ha.startLine, ha.endLine, hb.startLine, hb.endLine]
  rcases hafter.2 with hin | hbehind
  · -- what has a newline in it is not only blanks
    have hsolid : trimTokens g.tree.tokens ≠ [] := by
      intro hnil
      have hnewline := of_decide_eq_true (Bool.and_eq_true_iff.1 hmultiline).2
      rw [trimmedText, hnil] at hnewline
      cases hnewline
    have hinside := hstands.trimmedSpan_of_mem_ancestors hin hsolid
    exact Or.inl ⟨t.newlinesBefore_mono hinside.1, t.newlinesBefore_mono hinside.2⟩
  · have hle : f.trimmedSpan.stop ≤ g.trimmedSpan.start :=
      calc f.trimmedSpan.stop ≤ f.stop := f.trimmedSpan_inside.2.1
        _ ≤ g.start := hbehind
        _ ≤ g.trimmedSpan.start := g.trimmedSpan_inside.1
    exact Or.inr (t.newlinesBefore_mono hle)

theorem nested_folds (t : Text) : ((parse t).folds (.ofText t)).Pairwise fun a b =>
    (a.startLine ≤ b.startLine ∧ b.endLine ≤ a.endLine) ∨ a.endLine ≤ b.startLine := by
  have hnodes : (parse t).nodes.Pairwise fun f g => g.ComesAfter f :=
    (pairwise_focuses (parse t)).sublist List.filter_sublist
  refine List.pairwise_filterMap.2 (hnodes.imp_of_mem ?_)
  intro f g hf hg hafter a ha b hb
  exact folds_of_comesAfter (List.mem_filter.1 hf).1 (List.mem_filter.1 hg).1 hafter ha hb

theorem lines_of_mem_folds {fold : Fold} (h : fold ∈ (parse t).folds (.ofText t)) :
    fold.startLine < fold.endLine ∧ fold.endLine < (LineIndex.ofText t).lineCount := by
  obtain ⟨f, hf, hfold⟩ := List.mem_filterMap.1 h
  have hstands := standsIn_of_mem_focuses (List.mem_filter.1 hf).1
  obtain ⟨hmultiline, hof⟩ := hstands.fold?_eq_some_iff.1 hfold
  constructor
  · rw [hof.startLine, hof.endLine, hstands.line_lt_line_iff]
    exact of_decide_eq_true (Bool.and_eq_true_iff.1 hmultiline).2
  · -- the last line is that of a byte of the text
    obtain ⟨start, hstart, -⟩ := LineIndex.exists_start t f.trimmedSpan.stop
    rw [LineIndex.line_position, Nat.min_eq_left hstands.trimmedSpan_holds.stop_le_width,
      ← hof.endLine] at hstart
    obtain ⟨hlt, -⟩ := List.getElem?_eq_some_iff.1 hstart
    exact hlt

/-- **The folds of a text are its groups of several lines.** There is one for each clause or query
with a newline between the blanks at its ends, in preorder. They begin in lines that do not go back,
each ends in a later line of the text than it begins, and two of them are nested or have one line
in common at most. -/
theorem foldsGroups_folds (t : Text) : FoldsGroups t ((parse t).folds (.ofText t)) where
  groups := by
    refine List.forall₂_filterMap_filter ?_ ?_
    · intro f hf hmultiline
      have hstands := standsIn_of_mem_focuses (List.mem_filter.1 hf).1
      rw [Option.eq_none_iff_forall_ne_some]
      intro fold hfold
      rw [(hstands.fold?_eq_some_iff.1 hfold).1] at hmultiline
      cases hmultiline
    · intro f hf hmultiline
      have hstands := standsIn_of_mem_focuses (List.mem_filter.1 hf).1
      obtain ⟨kind, hkind⟩ := Focus.isKind_of_isMultiline hmultiline
      have hof : Fold.IsOf ⟨t.newlinesBefore f.trimmedSpan.start,
          t.newlinesBefore f.trimmedSpan.stop, kind⟩ t f := ⟨hkind, rfl, rfl⟩
      exact ⟨_, hstands.fold?_eq_some_iff.2 ⟨hmultiline, hof⟩, hof⟩
  ordered := by
    refine (nested_folds t).imp_of_mem fun ha _ hnested => ?_
    have hlines := (lines_of_mem_folds ha).1
    rcases hnested with hin | hbehind
    · exact hin.1
    · omega
  lines _ := lines_of_mem_folds
  nested := nested_folds t

/-- A clause that is not closed ends before the blanks behind it, in the line of the one in it. -/
theorem foldsGroups_folds_unclosed :
    (parse "(a\n (b\n) \n".toList).folds (.ofText "(a\n (b\n) \n".toList)
        = [⟨0, 2, .clause⟩, ⟨1, 2, .clause⟩] ∧
      FoldsGroups "(a\n (b\n) \n".toList [⟨0, 2, .clause⟩, ⟨1, 2, .clause⟩] := by
  have hfolds : (parse "(a\n (b\n) \n".toList).folds (.ofText "(a\n (b\n) \n".toList)
      = [⟨0, 2, .clause⟩, ⟨1, 2, .clause⟩] := by decide +kernel
  have hgroups := foldsGroups_folds "(a\n (b\n) \n".toList
  rw [hfolds] at hgroups
  exact ⟨hfolds, hgroups⟩

end Tree

end CardQuery
