import CardQuery.Editor.Completion
import CardQuery.Editor.Diagnostic
import CardQuery.Editor.Highlight
import CardQuery.Editor.Tooltip
import CardQuery.Proofs.Cursor.Standing
import CardQuery.Proofs.Editor.History
import CardQuery.Proofs.Parse.Arrangement
import CardQuery.Proofs.Parse.Lossless
import CardQuery.Proofs.Parse.Report
import CardQuery.Proofs.Query.Excision
import CardQuery.Proofs.Text.LineIndex
import CardQuery.Proofs.Token.Edge

/-!
# Reported positions can be used

Every byte that is reported for a text stands between two of its characters, and every range ends
where it starts or later, whatever is wrong with the text. All of them come from places of the tree,
and a place stands where the tokens before it end. So a text can be cut at any of them: the name and
the segments of a query, what is typed at an offset, and the pieces around the settings of a region
are cut out of the text where they stand.

Main statement: `positions_usable`.
-/

set_option autoImplicit false

namespace CardQuery

/-! ## Ranges of a text -/

/-- Whether a text can be cut at both ends of a range. -/
structure Span.IsUsable (s : Span) (t : Text) : Prop where
  start_le_stop : s.start ≤ s.stop
  stop_le_width : s.stop ≤ t.width
  start_isBoundary : t.IsBoundary s.start
  stop_isBoundary : t.IsBoundary s.stop

/-- Whether a range can be used and has this text at its bytes. -/
structure Span.Holds (s : Span) (t part : Text) : Prop extends s.IsUsable t where
  slice?_eq : t.slice? s.start s.stop = some part

theorem Text.isBoundary_append (before after : Text) :
    (before ++ after).IsBoundary before.width :=
  ⟨before, after, rfl, rfl⟩

theorem Span.holds_append (before part after : Text) :
    Holds ⟨before.width, before.width + part.width⟩ (before ++ (part ++ after)) part where
  start_le_stop := Nat.le_add_right _ _
  stop_le_width := by
    simp only [Text.width_append]
    omega
  start_isBoundary := Text.isBoundary_append before _
  stop_isBoundary := by
    rw [← List.append_assoc, ← Text.width_append]
    exact Text.isBoundary_append _ _
  slice?_eq := Text.slice?_append before part after

/-- Two cuts of one text: the first part of the narrower one begins the other. -/
theorem Text.exists_append_of_width_le {a b x y : Text} (h : a ++ b = x ++ y)
    (hwidth : a.width ≤ x.width) : ∃ part, x = a ++ part ∧ b = part ++ y := by
  rcases List.append_eq_append_iff.1 h with ⟨part, hx, hb⟩ | ⟨part, ha, hy⟩
  · exact ⟨part, hx, hb⟩
  · have hpart : part = [] := by
      cases part with
      | nil => rfl
      | cons c cs =>
          have hc := c.utf8Size_pos
          rw [ha, Text.width_append, Text.width_cons] at hwidth
          omega
    exact ⟨[], by simp [ha, hpart], by simp [hy, hpart]⟩

/-! ## Places -/

theorem Tree.width_text (t : Tree) : t.text.width = t.width := by
  rw [text, width_tokensText, tokensWidth_tokens]

/-- Some tokens of a tree stand where those before them end. -/
theorem Span.holds_of_tokens {t : Text} {before part after : List Token} {s : Span}
    (h : (parse t).tokens = before ++ (part ++ after)) (hstart : s.start = tokensWidth before)
    (hstop : s.stop = s.start + tokensWidth part) : s.Holds t (tokensText part) := by
  rcases s with ⟨start, stop⟩
  simp only at hstart hstop
  have htext : tokensText (parse t).tokens = t := text_parse t
  have hholds := holds_append (tokensText before) (tokensText part) (tokensText after)
  rw [width_tokensText, width_tokensText, ← tokensText_append, ← tokensText_append, ← h,
    htext, ← hstart, ← hstop] at hholds
  exact hholds

namespace Focus.StandsIn

variable {t : Text} {f : Focus} (h : f.StandsIn (parse t))
include h

/-- The bytes of a place have its text. -/
theorem span_holds : f.span.Holds t f.tree.text := by
  obtain ⟨before, after, htokens, hstart⟩ := h.exists_around
  refine Span.holds_of_tokens htokens hstart ?_
  rw [Tree.tokensWidth_tokens]
  rfl

/-- Nothing stands at the end of a place but the end. -/
theorem stop_holds : Span.Holds ⟨f.stop, f.stop⟩ t [] := by
  obtain ⟨before, after, htokens, hstart⟩ := h.exists_around
  have hrow : (parse t).tokens = (before ++ f.tree.tokens) ++ ([] ++ after) := by
    rw [htokens, List.append_assoc, List.nil_append]
  refine Span.holds_of_tokens hrow ?_ rfl
  rw [tokensWidth_append, Tree.tokensWidth_tokens, ← hstart]
  rfl

theorem trimmedSpan_holds :
    f.trimmedSpan.Holds t (tokensText (trimTokens f.tree.tokens)) := by
  obtain ⟨before, after, htokens, hstart⟩ := h.exists_around
  obtain ⟨trail, htrail, -, -⟩ := exists_trail f.tree.tokens
  have hrow : (parse t).tokens = (before ++ leadTokens f.tree.tokens)
      ++ (trimTokens f.tree.tokens ++ (trail ++ after)) := by
    rw [htokens]
    conv_lhs => rw [htrail]
    simp
  refine Span.holds_of_tokens hrow ?_ ?_
  · rw [f.trimmedSpan_eq, tokensWidth_append, hstart]
  · rw [f.trimmedSpan_eq]

end Focus.StandsIn

/-- Without the blanks at its ends a place has a part of its own text. -/
theorem Focus.trimmedSpan_inside (f : Focus) :
    f.start ≤ f.trimmedSpan.start ∧ f.trimmedSpan.stop ≤ f.stop ∧
      f.tree.text.slice? (f.trimmedSpan.start - f.start) (f.trimmedSpan.stop - f.start)
        = some (tokensText (trimTokens f.tree.tokens)) := by
  obtain ⟨trail, htrail, -, -⟩ := exists_trail f.tree.tokens
  have hwidth : f.tree.width = tokensWidth (leadTokens f.tree.tokens)
      + (tokensWidth (trimTokens f.tree.tokens) + tokensWidth trail) := by
    rw [← Tree.tokensWidth_tokens, ← tokensWidth_append, ← tokensWidth_append, ← htrail]
  rw [f.trimmedSpan_eq]
  refine ⟨Nat.le_add_right _ _, ?_, ?_⟩
  · simp only [stop, hwidth]
    omega
  · have hcut := slice?_tokensText (leadTokens f.tree.tokens) (trimTokens f.tree.tokens) trail
      rfl rfl
    rw [← htrail] at hcut
    rw [Nat.add_assoc, Nat.add_sub_cancel_left, Nat.add_sub_cancel_left]
    exact hcut

/-! ## Syntax errors, highlights and diagnostics -/

mutual

/-- A problem stands between two tokens of its tree, or at one of its ends. -/
theorem exists_of_mem_problemsFrom {start : Nat} {t : Tree} {p : PlacedProblem}
    (h : p ∈ problemsFrom start t) :
    ∃ before after, t.tokens = before ++ after ∧ p.start = start + tokensWidth before := by
  cases t with
  | token t => simp at h
  | node k cs =>
      rw [problemsFrom_node, List.mem_append, List.mem_append] at h
      rw [Tree.tokens_node]
      rcases h with (h | h) | h
      · obtain ⟨q, -, rfl⟩ := List.mem_map.1 h
        exact ⟨[], Tree.tokensOf cs, rfl, rfl⟩
      · exact exists_of_mem_problemsOf h
      · obtain ⟨q, -, rfl⟩ := List.mem_map.1 h
        exact ⟨Tree.tokensOf cs, [], by simp, by rw [Tree.tokensWidth_tokensOf]⟩

theorem exists_of_mem_problemsOf {start : Nat} {cs : List Tree} {p : PlacedProblem}
    (h : p ∈ problemsOf start cs) :
    ∃ before after, Tree.tokensOf cs = before ++ after ∧ p.start = start + tokensWidth before := by
  cases cs with
  | nil => simp at h
  | cons c cs =>
      rw [problemsOf_cons, List.mem_append] at h
      rw [Tree.tokensOf_cons]
      rcases h with h | h
      · obtain ⟨before, after, htokens, hstart⟩ := exists_of_mem_problemsFrom h
        exact ⟨before, after ++ Tree.tokensOf cs, by rw [htokens, List.append_assoc], hstart⟩
      · obtain ⟨before, after, htokens, hstart⟩ := exists_of_mem_problemsOf h
        refine ⟨c.tokens ++ before, after, by rw [htokens, List.append_assoc], ?_⟩
        rw [hstart, tokensWidth_append, Tree.tokensWidth_tokens, Nat.add_assoc]

end

section Parse

variable {t : Text}

theorem isUsable_of_mem_syntaxErrors {e : SyntaxError} (he : e ∈ syntaxErrors (parse t)) :
    e.span.IsUsable t := by
  obtain ⟨p, hp, rfl⟩ := List.mem_map.1 he
  simp only [spanAt]
  split
  · next found hfound =>
      -- the token that stands there
      obtain ⟨before, after, htokens, hstart⟩ :=
        exists_of_mem_placeTokens (List.mem_of_find?_eq_some hfound)
      rw [Nat.zero_add] at hstart
      have hstop : found.span.stop = found.span.start + tokensWidth [found.token] := by
        simp [PlacedToken.span, tokensWidth]
      exact (Span.holds_of_tokens htokens hstart hstop).toIsUsable
  · -- no token stands there, so it is the end of the text
    obtain ⟨before, after, htokens, hstart⟩ := exists_of_mem_problemsFrom hp
    rw [Nat.zero_add] at hstart
    rw [← List.nil_append after] at htokens
    exact (Span.holds_of_tokens htokens hstart rfl).toIsUsable

theorem isUsable_of_mem_highlights {h : Highlight} (hh : h ∈ (parse t).highlights) :
    h.span.IsUsable t := by
  obtain ⟨f, hf, hshown⟩ := List.mem_filterMap.1 hh
  have hstands := Tree.standsIn_of_mem_focuses (List.mem_filter.1 hf).1
  split at hshown
  · obtain ⟨tag, -, rfl⟩ := Option.map_eq_some_iff.1 hshown
    exact hstands.span_holds.toIsUsable
  · cases hshown

/-- What is wrong with a tag is shown at its argument or at its comparison. -/
theorem Focus.exists_of_tagDiagnostic? {f : Focus} {d : Diagnostic}
    (h : f.tagDiagnostic? = some d) : ∃ k g, f.child? k = some g ∧ d.span = g.span := by
  unfold tagDiagnostic? at h
  split at h
  · cases ha : f.child? .argument with
    | none => simp [ha] at h
    | some a =>
        cases ho : f.child? .operator with
        | none => simp [ha, ho] at h
        | some o =>
            simp only [ha, ho, Option.bind_eq_bind, Option.bind_some] at h
            split at h
            · cases h
              exact ⟨.argument, a, ha, rfl⟩
            · obtain ⟨op, -, h⟩ := Option.bind_eq_some_iff.1 h
              split at h
              · cases h
              · cases h
                exact ⟨.operator, o, ho, rfl⟩
  · cases h

theorem isUsable_of_mem_diagnostics {d : Diagnostic} (hd : d ∈ (parse t).diagnostics) :
    d.span.IsUsable t := by
  rw [Tree.diagnostics, List.mem_mergeSort, List.mem_append] at hd
  rcases hd with hd | hd
  · obtain ⟨e, he, rfl⟩ := List.mem_map.1 hd
    exact isUsable_of_mem_syntaxErrors he
  · obtain ⟨f, hf, hfound⟩ := List.mem_filterMap.1 hd
    have hstands := Tree.standsIn_of_mem_focuses (List.mem_filter.1 hf).1
    obtain ⟨k, g, hg, hspan⟩ := Focus.exists_of_tagDiagnostic? hfound
    rw [hspan]
    exact (hstands.child? hg).span_holds.toIsUsable

/-! ## Query documents -/

/-- The range of a segment. -/
def Segment.span (s : Segment) : Span :=
  ⟨s.start, s.stop⟩

/-- The range of a name. -/
def QueryName.span (n : QueryName) : Span :=
  ⟨n.start, n.stop⟩

theorem Segment.ofRegion_holds {region : Focus} (h : region.StandsIn (parse t)) :
    (ofRegion region).span.Holds t (ofRegion region).text :=
  h.trimmedSpan_holds

theorem Query.ofNode_holds {query : Focus} (h : query.StandsIn (parse t)) :
    (∀ n ∈ (ofNode query).name, n.span.Holds t n.text) ∧
      (ofNode query).body.span.Holds t (ofNode query).body.text := by
  constructor
  · intro n hn
    obtain ⟨f, hf, rfl⟩ := Option.map_eq_some_iff.1 hn
    exact (h.child? hf).span_holds
  · cases hbody : query.child? .queryBody with
    | some body =>
        simp only [ofNode, hbody, Option.map_some, Option.getD_some]
        exact Segment.ofRegion_holds (h.child? hbody)
    | none =>
        simp only [ofNode, hbody, Option.map_none, Option.getD_none]
        exact h.stop_holds

theorem QueryDocument.ofTree_holds (t : Text) :
    (∀ q ∈ (ofTree (parse t)).queries, ∀ n ∈ q.name, n.span.Holds t n.text) ∧
      (∀ q ∈ (ofTree (parse t)).queries, q.body.span.Holds t q.body.text) ∧
      ∀ d ∈ (ofTree (parse t)).domain, d.span.Holds t d.text := by
  have hroot : Focus.StandsIn ⟨parse t, 0, []⟩ (parse t) := .root
  have hnode : ∀ q ∈ ((Focus.children ⟨parse t, 0, []⟩).filter fun c => c.tree.isKind .query).map
      Query.ofNode, (∀ n ∈ q.name, n.span.Holds t n.text) ∧ q.body.span.Holds t q.body.text := by
    intro q hq
    obtain ⟨f, hf, rfl⟩ := List.mem_map.1 hq
    exact Query.ofNode_holds (hroot.children (List.mem_filter.1 hf).1)
  unfold ofTree
  split
  · simp
  · split
    · refine ⟨?_, ?_, by simp⟩
      · intro q hq
        simp only at hq
        split at hq <;> simp_all
      · intro q hq
        simp only at hq
        split at hq
        · cases hq
        · rw [List.mem_singleton.1 hq]
          exact Segment.ofRegion_holds hroot
    · refine ⟨fun q hq => (hnode q hq).1, fun q hq => (hnode q hq).2, fun d hd => ?_⟩
      obtain ⟨f, hf, rfl⟩ := Option.map_eq_some_iff.1 (Option.mem_filter_iff.1 hd).1
      exact Segment.ofRegion_holds (hroot.child? hf)

/-! ## Settings cut out of a region -/

theorem width_pos_of_mem_tokens_parse {x : Token} (hx : x ∈ (parse t).tokens) : 0 < x.width := by
  have htexts := map_text_tokens_parseTokens (tokenize t)
  have hmem : x.text ∈ (parse t).tokens.map Token.text := List.mem_map_of_mem hx
  rw [parse, htexts] at hmem
  obtain ⟨u, hu, htext⟩ := List.mem_map.1 hmem
  have hwidth : u.width = x.width := by rw [Token.width, Token.width, htext]
  rw [← hwidth]
  exact (isLexeme_of_mem_tokenize hu).width_pos

theorem Focus.StandsIn.residueOfText? {f : Focus} (h : f.StandsIn (parse t))
    (hnode : f.tree.isNode = true) : f.residueOfText? = some (Segment.ofRegion f).filter := by
  have hwide : ∀ x ∈ f.tree.tokens, 0 < x.width := fun x hx =>
    width_pos_of_mem_tokens_parse (h.mem_tokens hx)
  exact Focus.residueOfText?_eq hnode (h.all (all_arranged_parse t)) hwide

/-! ## What is reported at an offset -/

/-- Whether a part of a tag stands where it says. -/
def TagPart.Holds (part : TagPart) (t : Text) : Prop :=
  Span.Holds ⟨part.start, part.start + part.text.width⟩ t part.text

theorem Focus.StandsIn.tagPart_holds {f : Focus} (h : f.StandsIn (parse t)) :
    (TagPart.ofFocus f).Holds t := by
  have hholds := h.span_holds
  rw [TagPart.Holds, TagPart.ofFocus, f.tree.width_text]
  exact hholds

theorem tagAt?_holds {offset : Nat} {tag : TagAtCursor} (h : (parse t).tagAt? offset = some tag) :
    tag.span.IsUsable t ∧ tag.argument.Holds t ∧ (∀ part ∈ tag.operator, part.Holds t) ∧
      ∀ part ∈ tag.value, part.Holds t := by
  simp only [Tree.tagAt?, Option.bind_eq_bind, Option.bind_eq_some_iff, Option.pure_def,
    Option.some.injEq] at h
  obtain ⟨f, hf, a, ha, rfl⟩ := h
  have hstands := Tree.standsIn_of_ancestorAt? hf
  refine ⟨hstands.span_holds.toIsUsable, (hstands.child? ha).tagPart_holds, ?_, ?_⟩
  · intro part hpart
    obtain ⟨g, hg, rfl⟩ := Option.map_eq_some_iff.1 hpart
    exact (hstands.child? hg).tagPart_holds
  · intro part hpart
    obtain ⟨g, hg, rfl⟩ := Option.map_eq_some_iff.1 hpart
    exact (hstands.value? hg).tagPart_holds

theorem tooltipAt?_isBoundary {offset : Nat} {tip : Tooltip}
    (h : (parse t).tooltipAt? offset = some tip) : t.IsBoundary tip.anchor := by
  unfold Tree.tooltipAt? at h
  split at h
  · next tag htag =>
      cases h
      have hargument := (tagAt?_holds htag).2.1.start_isBoundary
      unfold Tooltip.ofTag
      split <;> exact hargument
  · simp only [Option.bind_eq_bind, Option.bind_eq_some_iff, Option.pure_def,
      Option.some.injEq] at h
    obtain ⟨f, hf, parent, hparent, k, -, rfl⟩ := h
    have hstands := (Tree.touches_of_mem_tokensAt (List.mem_of_head? hf)).1
    exact (hstands.up? hparent).1.span_holds.start_isBoundary

theorem currentAt?_standsIn {offset : Nat} {f : Focus}
    (h : (parse t).currentAt? offset = some f) : f.StandsIn (parse t) := by
  rcases Option.or_eq_some_iff.1 h with h | ⟨-, h⟩
  · exact Tree.standsIn_of_ancestorAt? h
  · obtain ⟨g, hg, hup⟩ := List.exists_of_findSome?_eq_some h
    exact ((Tree.touches_of_mem_tokensAt hg).1.up? hup).1

theorem currentAt?_of_constraintsAt {offset : Nat} {f : Focus}
    (h : ((parse t).constraintsAt offset).current = some f) :
    (parse t).currentAt? offset = some f := by
  unfold Tree.constraintsAt at h
  split at h
  · cases h
  · next current hcurrent =>
      cases h
      exact hcurrent

/-! ## What is being typed -/

/-- What a place has before an offset in it can be cut out of the text. -/
theorem Focus.StandsIn.typedBefore_eq {f : Focus} (h : f.StandsIn (parse t)) {offset : Nat}
    (hoffset : t.IsBoundary offset) (hstart : f.start ≤ offset) (hstop : offset ≤ f.stop) :
    t.slice? f.start offset = some (f.typedBefore offset) := by
  obtain ⟨before, after, htokens, hbefore⟩ := h.exists_around
  obtain ⟨read, rest, hread, hwidth⟩ := hoffset
  have htext : tokensText before ++ (f.tree.text ++ tokensText after) = read ++ rest := by
    rw [← hread, Tree.text, ← tokensText_append, ← tokensText_append, ← htokens]
    exact text_parse t
  rw [← width_tokensText] at hbefore
  -- the offset is behind what stands before the place, and what stands between is in the place
  obtain ⟨part, hpart, hplace⟩ := Text.exists_append_of_width_le htext (by omega)
  have hpartWidth : offset = f.start + part.width := by
    rw [← hwidth, hpart, Text.width_append, hbefore]
  have hinside : part.width ≤ f.tree.text.width := by
    rw [f.tree.width_text]
    unfold stop at hstop
    omega
  obtain ⟨left, hleft, hrest⟩ := Text.exists_append_of_width_le hplace.symm hinside
  have hcount : min offset f.stop - min f.start offset = part.width := by omega
  have htyped : f.typedBefore offset = part := by
    rw [typedBefore, hcount, hleft, Text.takeWidth?, Text.splitAtWidth?_append]
    rfl
  rw [htyped, hpartWidth, hbefore, hread, hpart, List.append_assoc]
  exact Text.slice?_append _ _ _

/-- The byte where what is typed starts. -/
def CompletionContext.start : CompletionContext → Nat
  | .argument start _ => start
  | .value _ start _ => start

/-- The text that is typed so far. -/
def CompletionContext.typed : CompletionContext → Text
  | .argument _ typed => typed
  | .value _ _ typed => typed

theorem slice?_self {offset : Nat} (hoffset : t.IsBoundary offset) :
    t.slice? offset offset = some [] := by
  obtain ⟨before, after, rfl, rfl⟩ := hoffset
  exact Text.slice?_append before [] after

/-- A word or a minus sign of a tree consists of characters of words. -/
theorem isWordChar_of_mem_tokens_parse {x : Token} (hx : x ∈ (parse t).tokens)
    (hk : x.kind = .word ∨ x.kind = .minus) : ∀ c ∈ x.text, isWordChar c = true := by
  rw [parse, ← Tree.map_snd_placed []] at hx
  obtain ⟨p, hp, rfl⟩ := List.mem_map.1 hx
  obtain ⟨u, hu, hheld⟩ := (kept_parseTokens (tokenize t)).exists_of_mem hp
  have hlexeme := isLexeme_of_mem_tokenize hu
  rcases hheld with hsame | ⟨hkeyword, hword⟩
  · rw [hsame] at hk ⊢
    rcases hk with hk | hk
    · exact hlexeme.forall_isWordChar (Or.inl hk)
    · have hminus : isWordChar '-' = true := by decide
      rw [hlexeme.text_eq_singleton (d := '-') rfl hk, List.forall_mem_singleton]
      exact hminus
  · -- a keyword that stands as a value
    rw [hword]
    exact hlexeme.forall_isWordChar (Or.inr hkeyword)

/-- A value without quotes does not begin with one. -/
theorem Focus.StandsIn.head?_text_ne_quote {f : Focus} (h : f.StandsIn (parse t))
    (hk : f.tree.isKind .value = true) : f.tree.text.head? ≠ some '"' := by
  obtain ⟨cs, htree⟩ := Tree.exists_node_of_isKind hk
  have harranged := h.all (all_arranged_parse t)
  rw [htree, Tree.all_node] at harranged
  obtain ⟨ts, hne, rfl, hkinds⟩ := harranged.1.parts
  obtain ⟨x, xs, rfl⟩ := List.exists_cons_of_ne_nil hne
  have hx : x ∈ (parse t).tokens := h.mem_tokens (by simp [htree])
  intro hquote
  cases htext : x.text with
  | nil =>
      have hwidth := width_pos_of_mem_tokens_parse hx
      simp [Token.width, htext] at hwidth
  | cons c cs =>
      have hword := isWordChar_of_mem_tokens_parse hx (hkinds x List.mem_cons_self) c
        (by simp [htext])
      obtain rfl : c = '"' := by
        simpa [htree, Tree.text, tokensText, htext] using hquote
      revert hword
      decide

/-- The part of a place before an offset begins as the place does. -/
theorem Focus.typedBefore_prefix (f : Focus) (offset : Nat) :
    f.typedBefore offset <+: f.tree.text := by
  unfold typedBefore Text.takeWidth?
  cases hsplit : Text.splitAtWidth? (min offset f.stop - min f.start offset) f.tree.text with
  | none => exact List.nil_prefix
  | some parts => exact ⟨parts.2, (Text.splitAtWidth?_eq_some hsplit).1⟩

/-- What a value without quotes has before an offset does not begin with a quote either. -/
theorem Focus.StandsIn.dropWhile_typedBefore {f : Focus} (h : f.StandsIn (parse t))
    (hk : f.tree.isKind .value = true) (offset : Nat) :
    (f.typedBefore offset).dropWhile (· = '"') = f.typedBefore offset := by
  obtain ⟨rest, htext⟩ := f.typedBefore_prefix offset
  cases htyped : f.typedBefore offset with
  | nil => rfl
  | cons c cs =>
      have hquote := h.head?_text_ne_quote hk
      rw [← htext, htyped] at hquote
      have hc : c ≠ '"' := by simpa using hquote
      simp [hc]

/-- What counts of a text that is typed: of a value the quotes at its start do not. -/
def CompletionContext.counting : CompletionContext → Text → Text
  | .argument .., part => part
  | .value .., part => part.dropWhile (· = '"')

/-- Whether what is typed is what counts of the text up to an offset. -/
structure CompletionContext.IsCut (c : CompletionContext) (t : Text) (offset : Nat) : Prop where
  start_isBoundary : t.IsBoundary c.start
  start_le : c.start ≤ offset
  typed_eq : ∃ part, t.slice? c.start offset = some part ∧ c.typed = c.counting part

theorem completionContext?_isCut {offset : Nat} (hoffset : t.IsBoundary offset)
    {c : CompletionContext} (h : (parse t).completionContext? offset = some c) :
    c.IsCut t offset := by
  have hhere : ∀ c : CompletionContext, c.start = offset → c.typed = c.counting [] →
      c.IsCut t offset :=
    fun c hstart htyped =>
      ⟨hstart ▸ hoffset, Nat.le_of_eq hstart, [], by rw [hstart, slice?_self hoffset], htyped⟩
  unfold Tree.completionContext? at h
  split at h
  · cases h
    exact hhere _ rfl rfl
  · next f hf =>
      obtain ⟨hstands, hstart, hstop⟩ :=
        Tree.touches_of_mem_tokensAt (List.mem_of_getLast? hf)
      have hplace : ∀ g : Focus, g.StandsIn (parse t) → g.start ≤ offset → offset ≤ g.stop →
          ∀ c : CompletionContext, c.start = g.start →
            c.typed = c.counting (g.typedBefore offset) → c.IsCut t offset :=
        fun g hg hgstart hgstop c hc htyped =>
          ⟨hc ▸ hg.span_holds.start_isBoundary, hc ▸ hgstart, _,
            hc ▸ hg.typedBefore_eq hoffset hgstart hgstop, htyped⟩
      have hvalue : ∀ value tag, f.up? = some value → f.parentKind? = some .value →
          (CompletionContext.value tag value.start (value.typedBefore offset)).IsCut t offset := by
        intro value tag hup hparent
        obtain ⟨hvalue, hvalueStart, hvalueStop⟩ := hstands.up? hup
        have hkind : value.tree.isKind .value = true := by
          rw [Tree.isKind, ← Focus.parentKind?_of_up? hup, hparent]
          decide
        exact hplace value hvalue (Nat.le_trans hvalueStart hstart)
          (Nat.le_trans hstop hvalueStop) _ rfl (hvalue.dropWhile_typedBefore hkind offset).symm
      unfold Focus.completionContext? at h
      split at h
      · split at h
        · cases h
          exact hhere _ rfl rfl
        · cases h
      · -- by the token that the offset is in, in the order of the definition
        split at h
        · cases h
          exact hhere _ rfl rfl
        · cases h
          exact hhere _ rfl rfl
        · cases h
          exact hhere _ rfl rfl
        · cases h
          exact hplace f hstands hstart hstop _ rfl rfl
        · obtain ⟨tag, -, rfl⟩ := Option.map_eq_some_iff.1 h
          exact hhere _ rfl rfl
        · next hparent =>
            split at h
            · next value tag hup _ =>
                cases h
                exact hvalue value tag hup hparent
            · cases h
        · next hparent =>
            split at h
            · next value tag hup _ =>
                cases h
                exact hvalue value tag hup hparent
            · cases h
        · obtain ⟨tag, -, rfl⟩ := Option.map_eq_some_iff.1 h
          exact hplace f hstands hstart hstop _ rfl rfl
        · cases h

theorem completionsAt?_start {offset : Nat} (hoffset : t.IsBoundary offset) {catalog : Catalog}
    {settings : EditorSettings} {r : CompletionResult}
    (h : (parse t).completionsAt? catalog settings offset = some r) :
    t.IsBoundary r.start ∧ r.start ≤ offset := by
  unfold Tree.completionsAt? at h
  split at h
  · cases h
  · cases hcontext : (parse t).completionContext? offset with
    | none => simp [hcontext] at h
    | some c =>
        have hcut := completionContext?_isCut hoffset hcontext
        cases c with
        | argument start typed =>
            simp only [hcontext, Option.some.injEq] at h
            rw [← h]
            exact ⟨hcut.start_isBoundary, hcut.start_le⟩
        | value tag start typed =>
            simp only [hcontext, Option.map_eq_some_iff] at h
            obtain ⟨items, -, rfl⟩ := h
            exact ⟨hcut.start_isBoundary, hcut.start_le⟩

end Parse

/-! ## Lines -/

namespace LineIndex

theorem isBoundary_of_mem_startsAfter (before after : Text) :
    ∀ n ∈ startsAfter before.width after, (before ++ after).IsBoundary n := by
  induction after generalizing before with
  | nil => simp [startsAfter]
  | cons c cs ih =>
      have hnext := ih (before ++ [c])
      have hwidth : (before ++ [c]).width = before.width + c.utf8Size := by
        simp [Text.width_append]
      rw [hwidth, List.append_assoc, List.singleton_append] at hnext
      intro n hn
      simp only [startsAfter] at hn
      split at hn
      · rcases List.mem_cons.1 hn with rfl | hn
        · rw [← hwidth, ← List.singleton_append, ← List.append_assoc]
          exact Text.isBoundary_append _ _
        · exact hnext n hn
      · exact hnext n hn

/-- The line of a byte starts between two characters, at the byte or before it. -/
theorem exists_start_position (t : Text) (n : Nat) :
    ∃ start, (ofText t).starts[((ofText t).position n).line]? = some start ∧
      t.IsBoundary start ∧ start + ((ofText t).position n).column = min n t.width := by
  obtain ⟨start, hstart, hcolumn⟩ := exists_start t n
  refine ⟨start, hstart, ?_, hcolumn⟩
  rcases List.mem_cons.1 (List.mem_of_getElem? hstart) with rfl | hmem
  · exact Text.isBoundary_append [] t
  · exact isBoundary_of_mem_startsAfter [] t start hmem

end LineIndex

/-! ## The main statement -/

/-- Whether everything that is reported for a text can be used: for the whole text, and at an
offset of it. -/
structure PositionsUsable (t : Text) (offset : Nat) : Prop where
  /-- A token or a node has its text at its bytes. -/
  places : ∀ f ∈ (parse t).focuses, f.span.Holds t f.tree.text
  /-- Without the blanks at its ends it is a part of the text, and of its own text too. -/
  trimmed : ∀ f ∈ (parse t).focuses,
    f.trimmedSpan.Holds t (tokensText (trimTokens f.tree.tokens)) ∧
      f.start ≤ f.trimmedSpan.start ∧ f.trimmedSpan.stop ≤ f.stop ∧
      f.tree.text.slice? (f.trimmedSpan.start - f.start) (f.trimmedSpan.stop - f.start)
        = some (tokensText (trimTokens f.tree.tokens))
  errors : ∀ e ∈ syntaxErrors (parse t), e.span.IsUsable t
  highlights : ∀ h ∈ (parse t).highlights, h.span.IsUsable t
  diagnostics : ∀ d ∈ (parse t).diagnostics, d.span.IsUsable t
  names : ∀ q ∈ (QueryDocument.ofTree (parse t)).queries, ∀ n ∈ q.name, n.span.Holds t n.text
  bodies : ∀ q ∈ (QueryDocument.ofTree (parse t)).queries, q.body.span.Holds t q.body.text
  domain : ∀ d ∈ (QueryDocument.ofTree (parse t)).domain, d.span.Holds t d.text
  /-- Every cut that takes the settings out of the text of a node is possible. -/
  residues : ∀ f ∈ (parse t).nodes, f.residueOfText? = some (Segment.ofRegion f).filter
  /-- The tag at the offset and its parts have their texts at their bytes. -/
  tag : ∀ tag ∈ (parse t).tagAt? offset, tag.span.IsUsable t ∧ tag.argument.Holds t ∧
    (∀ part ∈ tag.operator, part.Holds t) ∧ ∀ part ∈ tag.value, part.Holds t
  /-- What is typed starts between two characters at the offset or before it, and is cut out of the
  text. In a value the quotes at its start do not count. -/
  typed : ∀ c ∈ (parse t).completionContext? offset, c.IsCut t offset
  completions : ∀ catalog settings, ∀ r ∈ (parse t).completionsAt? catalog settings offset,
    t.IsBoundary r.start ∧ r.start ≤ offset
  tooltip : ∀ tip ∈ (parse t).tooltipAt? offset, t.IsBoundary tip.anchor
  current : ∀ f ∈ ((parse t).constraintsAt offset).current, f.span.Holds t f.tree.text
  /-- The line of any byte starts at that byte or before it, between two characters. -/
  lines : ∀ n, ∃ start,
    (LineIndex.ofText t).starts[((LineIndex.ofText t).position n).line]? = some start ∧
      t.IsBoundary start ∧ start + ((LineIndex.ofText t).position n).column = min n t.width

/-- **Every position that is reported can be used, whatever is wrong with the text.** -/
theorem positions_usable {t : Text} {offset : Nat} (hoffset : t.IsBoundary offset) :
    PositionsUsable t offset where
  places f hf := (Tree.standsIn_of_mem_focuses hf).span_holds
  trimmed f hf :=
    ⟨(Tree.standsIn_of_mem_focuses hf).trimmedSpan_holds, f.trimmedSpan_inside⟩
  errors _ he := isUsable_of_mem_syntaxErrors he
  highlights _ hh := isUsable_of_mem_highlights hh
  diagnostics _ hd := isUsable_of_mem_diagnostics hd
  names := (QueryDocument.ofTree_holds t).1
  bodies := (QueryDocument.ofTree_holds t).2.1
  domain := (QueryDocument.ofTree_holds t).2.2
  residues f hf := by
    obtain ⟨hmem, hnode⟩ := List.mem_filter.1 hf
    exact (Tree.standsIn_of_mem_focuses hmem).residueOfText? hnode
  tag _ htag := tagAt?_holds htag
  typed _ hc := completionContext?_isCut hoffset hc
  completions _ _ _ hr := completionsAt?_start hoffset hr
  tooltip _ htip := tooltipAt?_isBoundary htip
  current _ hf := (currentAt?_standsIn (currentAt?_of_constraintsAt hf)).span_holds
  lines n := LineIndex.exists_start_position t n

/-- A bracket that is not closed, behind a character of two bytes; the offset is that of this
character. -/
theorem positions_usable_inside : Text.IsBoundary "t:é -(order:x".toList 2 ∧
    PositionsUsable "t:é -(order:x".toList 2 := by
  have hoffset : Text.IsBoundary "t:é -(order:x".toList 2 :=
    ⟨"t:".toList, "é -(order:x".toList, by decide, by decide⟩
  exact ⟨hoffset, positions_usable hoffset⟩

end CardQuery
