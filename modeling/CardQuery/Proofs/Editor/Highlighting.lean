import CardQuery.Editor.Highlight
import CardQuery.Proofs.Cursor.Between
import CardQuery.Proofs.Editor.Findings
import CardQuery.Proofs.Parse.Progress
import CardQuery.Proofs.Parse.TermTokens
import Mathlib.Data.List.Sort

/-!
# Highlighting covers the text

Every token but the blanks is highlighted, once and in order. What an argument is shown as is
decided token by token, by looking up through the tree, and what is found about it tag by tag, by
looking down. Both come to the same.

Main statement: `Tree.highlights_agree`.
-/

set_option autoImplicit false

namespace CardQuery

open CardQuery.Tree (token)

/-! ## The highlighted ranges -/

/-- A token is shown unless it is a blank outside of errors. -/
theorem isSome_highlightTag? {f : Focus} {x : Token}
    (h : f.parentKind? = some .error → x.isBlank = false) :
    (highlightTag? f x).isSome = !x.isBlank := by
  unfold highlightTag?
  split
  · next herror => simp [h herror]
  · split <;> simp_all [Token.isBlank]

namespace Tree

variable {t : Text}

theorem exists_token_of_mem_leaves {t : Tree} {f : Focus} (hf : f ∈ t.leaves) :
    ∃ x, f.tree = .token x := by
  have hleaf := (List.mem_filter.1 hf).2
  cases htree : f.tree with
  | token x => exact ⟨x, rfl⟩
  | node k cs => simp [htree, isNode, kind?] at hleaf

/-- The parent of a place is a place of its own, with the place among its children. -/
theorem exists_parent_of_parentKind? {t : Tree} {f : Focus} (hf : f ∈ t.focuses) {k : NodeKind}
    (h : f.parentKind? = some k) :
    ∃ p ∈ t.focuses, ∃ cs, p.tree = .node k cs ∧ f.tree ∈ cs := by
  obtain ⟨p, hp⟩ : ∃ p, f.up? = some p := by
    rcases f with ⟨tree, start, _ | ⟨s, above⟩⟩
    · cases h
    · exact ⟨_, rfl⟩
  have hkind : p.tree.isKind k = true := by
    rw [Focus.parentKind?_of_up? hp] at h
    simp [isKind, h]
  obtain ⟨cs, hcs⟩ := exists_node_of_isKind hkind
  have hmem := List.mem_map_of_mem (f := Focus.tree) ((standsIn_of_mem_focuses hf).mem_children hp)
  rw [Focus.map_tree_children, hcs] at hmem
  exact ⟨p, mem_focuses_of_mem_ancestors hf (Focus.mem_ancestors_of_up? hp), cs, hcs, hmem⟩

/-- No blank stands in an error of a text. -/
theorem not_isBlank_of_parentKind? {f : Focus} {x : Token} (hf : f ∈ (parse t).leaves)
    (htree : f.tree = .token x) (h : f.parentKind? = some .error) : x.isBlank = false := by
  obtain ⟨p, hp, cs, hcs, hmem⟩ := exists_parent_of_parentKind? (List.mem_filter.1 hf).1 h
  have hblanks := all_of_mem_focuses (all_keepsBlanksOut_parse t) hp
  have hformed := all_of_mem_focuses
    (outerOrFormed_parseTokens fun _ hx => isLexeme_of_mem_tokenize hx) hp
  rw [hcs, all_node] at hblanks hformed
  refine not_isBlank_of_error hblanks.1 hformed.1 x ?_
  rw [htree] at hmem
  obtain ⟨before, after, rfl⟩ := List.append_of_mem hmem
  simp

/-- **The highlighted ranges are those of the tokens but the blanks.** -/
theorem map_span_highlights (t : Text) :
    (parse t).highlights.map Highlight.span
      = ((placeTokens 0 (tokenize t)).filter fun p => !p.token.isBlank).map PlacedToken.span := by
  let solid : Option Bool × Span → Option Span :=
    fun x => if x.1 = some false then some x.2 else none
  have hleaves : (parse t).highlights.map Highlight.span
      = ((parse t).leaves.map fun g =>
          (g.tree.tokenKind?.map fun k => decide (k = .blank), g.span)).filterMap solid := by
    rw [highlights, List.map_filterMap, List.filterMap_map]
    refine List.filterMap_congr fun f hf => ?_
    obtain ⟨x, htree⟩ := exists_token_of_mem_leaves hf
    have hshown := isSome_highlightTag? (not_isBlank_of_parentKind? hf htree)
    cases htag : highlightTag? f x with
    | none =>
      rw [htag] at hshown
      simp_all [solid, Token.isBlank, tokenKind?]
    | some tag =>
      rw [htag] at hshown
      simp_all [solid, Token.isBlank, tokenKind?]
  rw [hleaves, map_leaves_parse fun _ => rfl, List.filterMap_map, ← List.filterMap_eq_map,
    List.filterMap_filter]
  refine List.filterMap_congr fun p _ => ?_
  cases hblank : p.token.isBlank <;> simp_all [solid, Token.isBlank]

/-- The highlighted ranges lie side by side, and none is empty. -/
theorem pairwise_highlights (t : Text) :
    ((parse t).highlights.map Highlight.span).Pairwise fun a b => a.stop ≤ b.start := by
  rw [map_span_highlights, List.pairwise_map]
  exact (pairwise_placeTokens 0 (tokenize t)).sublist List.filter_sublist

theorem start_lt_stop_of_mem_highlights {h : Highlight} (hh : h ∈ (parse t).highlights) :
    h.span.start < h.span.stop := by
  have hspan := List.mem_map_of_mem (f := Highlight.span) hh
  rw [map_span_highlights] at hspan
  obtain ⟨p, hp, hps⟩ := List.mem_map.1 hspan
  have hpos := (isLexeme_of_mem_tokenize (placeTokens_bounds (List.mem_filter.1 hp).1).1).width_pos
  rw [← hps, PlacedToken.span]
  exact Nat.lt_add_of_pos_right hpos

end Tree

/-! ## Arguments -/

/-- How the argument of a comparison is shown, by whether it is known. -/
def argumentVerdict (known : Bool) : HighlightTag :=
  if known then .argument else .invalidArgument

theorem argumentHighlight_eq_iff {a : Focus} {name : Text} {known : Bool} :
    argumentHighlight a name = argumentVerdict known ↔
      isArgument name = known ∧ ∃ p, a.up? = some p ∧ p.tree.isKind .tag = true ∧
        p.tree.operator?.isSome = true := by
  have hvalue : HighlightTag.value ≠ argumentVerdict known := by cases known <;> decide
  cases hup : a.up? with
  | none => simp [argumentHighlight, hup, hvalue]
  | some p =>
      simp only [argumentHighlight, hup]
      split
      · next hchecked =>
          rw [Bool.and_eq_true] at hchecked
          cases hname : isArgument name <;> cases known <;> simp [argumentVerdict, hchecked]
      · next hchecked =>
          rw [Bool.and_eq_true] at hchecked
          simp [hvalue, hchecked]

theorem argumentHighlight_ne_invalid (a : Focus) (name : Text) :
    argumentHighlight a name ≠ .invalid := by
  unfold argumentHighlight
  split
  · split
    · split <;> decide
    · decide
  · decide

/-- A token is shown as an argument, known or not, if it is the word of one in a tag with a
comparison. -/
theorem highlightTag?_eq_argumentVerdict_iff {f : Focus} {x : Token} {known : Bool} :
    highlightTag? f x = some (argumentVerdict known) ↔
      x.kind = .word ∧ f.parentKind? = some .argument ∧
        ∃ a, f.up? = some a ∧ argumentHighlight a x.text = argumentVerdict known := by
  unfold highlightTag?
  constructor
  · intro h
    split at h
    · cases known <;> cases h
    · split at h
      case h_11 hkind hparent =>
        refine ⟨hkind, hparent, ?_⟩
        cases hup : f.up? with
        | none => cases known <;> simp [hup, argumentVerdict] at h
        | some a => exact ⟨a, rfl, by simpa [hup] using h⟩
      all_goals cases known <;> cases h
  · rintro ⟨hkind, hparent, a, hup, ha⟩
    simp [hkind, hparent, hup, ha]

/-- What is shown as invalid stands in an error or is no token of the language. -/
theorem highlightTag?_eq_invalid {f : Focus} {x : Token}
    (h : highlightTag? f x = some .invalid) :
    f.parentKind? = some .error ∨ x.kind = .unknown := by
  unfold highlightTag? at h
  split at h
  · next herror => exact Or.inl herror
  · split at h
    case h_2 hkind => exact Or.inr hkind
    case h_11 =>
      cases hup : f.up? with
      | none => simp [hup] at h
      | some a => exact absurd (by simpa [hup] using h) (argumentHighlight_ne_invalid a x.text)
    all_goals cases h

namespace Tree

variable {t : Text}

theorem mem_highlights_iff {t : Tree} {h : Highlight} :
    h ∈ t.highlights ↔ ∃ f ∈ t.leaves, ∃ x, f.tree = .token x ∧ f.span = h.span ∧
      highlightTag? f x = some h.tag := by
  rw [highlights, List.mem_filterMap]
  constructor
  · rintro ⟨f, hf, hshown⟩
    obtain ⟨x, htree⟩ := exists_token_of_mem_leaves hf
    rw [htree] at hshown
    obtain ⟨tag, htag, rfl⟩ := Option.map_eq_some_iff.1 hshown
    exact ⟨f, hf, x, htree, rfl, htag⟩
  · rintro ⟨f, hf, x, htree, hspan, htag⟩
    refine ⟨f, hf, ?_⟩
    rw [htree]
    exact Option.map_eq_some_iff.2 ⟨h.tag, htag, by rw [hspan]⟩

/-- A tag has one argument at most. -/
theorem child?_argument_eq {p a : Focus} (hp : p ∈ (parse t).focuses)
    (hptag : p.tree.isKind .tag = true) (ha : a ∈ p.children)
    (hkind : a.tree.isKind .argument = true) : p.child? .argument = some a := by
  obtain ⟨cs, htree, harranged⟩ := exists_arranged hp hptag
  refine Focus.child?_eq_of_mem_children ?_ ha hkind
  have hmem : a.tree ∈ cs := by
    have hmap := List.mem_map_of_mem (f := Focus.tree) ha
    rwa [Focus.map_tree_children, htree] at hmap
  rw [htree]
  show (cs.filter (isKind .argument)).length = 1
  cases tagParts_of_parts harranged.parts with
  | loneSign hs => simp_all [isKind]
  | @bare s w hs hw =>
      have hargument : w.kind? = some .argument := by
        rcases List.mem_pair.1 hmem with h | h <;> simp_all [isKind]
      simp [isKind, hs, hargument]
  | @comparing sign value x op hsign hx hop hvalue =>
      have hno : ∀ v ∈ value, v.isKind .argument = false := by
        intro v hv
        have hpart := hvalue v hv
        cases hk : v.kind? with
        | none => simp [hk] at hpart
        | some k => cases k <;> simp_all [isKind, NodeKind.isTagValue]
      rcases sign with _ | s <;> rcases value with _ | v <;> simp_all [isKind]

/-- A word is all that stands in an argument. -/
theorem exists_word_of_argument {p a : Focus} (hp : p ∈ (parse t).focuses)
    (ha : p.child? .argument = some a) :
    ∃ f w, a.children = [f] ∧ f.tree = .token w ∧ w.kind = .word ∧ a.tree.text = w.text ∧
      f.span = a.span := by
  obtain ⟨-, -, cs, htree, harranged⟩ := arranged_of_child? hp ha
  obtain ⟨w, rfl, hw⟩ := harranged.parts
  refine ⟨⟨.token w, a.start, ⟨.argument, a.start, [], []⟩ :: a.above⟩, w, ?_, rfl, hw, ?_, ?_⟩
  · rw [Focus.children, htree]
    rfl
  · simp [htree, text]
  · simp [Focus.span, Focus.stop, htree, width, widthOf]

/-- **A range is shown as an argument, known or not, when it is that of the argument of a tag with
a comparison.** -/
theorem mem_highlights_argumentVerdict_iff {known : Bool} {s : Span} :
    ⟨s, argumentVerdict known⟩ ∈ (parse t).highlights ↔
      ∃ f ∈ (parse t).tags, ∃ a, f.child? .argument = some a ∧
        (f.child? .operator).isSome = true ∧ isArgument a.tree.text = known ∧ a.span = s := by
  have hoperator : ∀ p : Focus, (p.child? .operator).isSome = p.tree.operator?.isSome := by
    intro p
    rw [operator?, ← Focus.map_tree_child?, Option.isSome_map]
  rw [mem_highlights_iff]
  constructor
  · rintro ⟨f, hf, x, htree, hspan, hshown⟩
    obtain ⟨-, hparent, a, hup, hshown⟩ := highlightTag?_eq_argumentVerdict_iff.1 hshown
    obtain ⟨hknown, p, hpup, hptag, hop⟩ := argumentHighlight_eq_iff.1 hshown
    have hplace := (List.mem_filter.1 hf).1
    have haplace := mem_focuses_of_mem_ancestors hplace (Focus.mem_ancestors_of_up? hup)
    have hpplace := mem_focuses_of_mem_ancestors haplace (Focus.mem_ancestors_of_up? hpup)
    have hakind : a.tree.isKind .argument = true := by
      rw [Focus.parentKind?_of_up? hup] at hparent
      simp [isKind, hparent]
    have hchild := child?_argument_eq hpplace hptag
      ((standsIn_of_mem_focuses haplace).mem_children hpup) hakind
    -- the leaf is the word that stands in the argument
    obtain ⟨g, w, hchildren, hw, -, htext, hrange⟩ := exists_word_of_argument hpplace hchild
    obtain rfl : f = g := by
      have hmem := (standsIn_of_mem_focuses hplace).mem_children hup
      rwa [hchildren, List.mem_singleton] at hmem
    obtain rfl : x = w := Tree.token.inj (htree.symm.trans hw)
    refine ⟨p, List.mem_filter.2 ⟨List.mem_filter.2 ⟨hpplace, ?_⟩, hptag⟩, a, hchild, ?_, ?_, ?_⟩
    · obtain ⟨ds, hds⟩ := exists_node_of_isKind hptag
      simp [hds, isNode, kind?]
    · rw [hoperator, hop]
    · rw [htext, hknown]
    · exact hrange.symm.trans hspan
  · rintro ⟨f, hf, a, hchild, hop, hknown, rfl⟩
    have hplace := mem_focuses_of_mem_terms (mem_terms_of_mem_tags hf)
    obtain ⟨haplace, hup, cs, hcs, -⟩ := arranged_of_child? hplace hchild
    obtain ⟨g, w, hchildren, hw, hkind, htext, hrange⟩ := exists_word_of_argument hplace hchild
    obtain ⟨hgplace, hgup⟩ := mem_focuses_of_mem_children (c := g) haplace (by simp [hchildren])
    have hleaf : g ∈ (parse t).leaves :=
      List.mem_filter.2 ⟨hgplace, by simp [hw, isNode, kind?]⟩
    have hparent : g.parentKind? = some .argument := by
      rw [Focus.parentKind?_of_up? hgup, hcs]
      rfl
    refine ⟨g, hleaf, w, hw, hrange, highlightTag?_eq_argumentVerdict_iff.2 ⟨hkind, hparent, a,
      hgup, argumentHighlight_eq_iff.2 ⟨?_, f, hup, (List.mem_filter.1 hf).2, ?_⟩⟩⟩
    · rw [← htext, hknown]
    · rw [← hoperator, hop]

/-! ## Agreement with the diagnostics -/

/-- The ranges of the warnings about unknown arguments. -/
def unknownArguments (t : Tree) : List Span :=
  (t.diagnostics.filter fun d => d.finding.isUnknownArgument).map Diagnostic.span

theorem filter_isUnknownArgument_diagnostics (t : Text) :
    (parse t).diagnostics.filter (fun d => d.finding.isUnknownArgument)
      = (parse t).tagDiagnostics.filter fun d => d.finding.isUnknownArgument := by
  rw [← filter_not_isSyntaxError_diagnostics, List.filter_filter]
  refine List.filter_congr fun d _ => ?_
  rcases d with ⟨finding, span⟩
  cases finding <;> rfl

theorem mem_unknownArguments_iff {s : Span} :
    s ∈ (parse t).unknownArguments ↔
      ∃ f ∈ (parse t).tags, ∃ a, f.child? .argument = some a ∧
        (f.child? .operator).isSome = true ∧ isArgument a.tree.text = false ∧ a.span = s := by
  rw [unknownArguments, filter_isUnknownArgument_diagnostics, tagDiagnostics_eq, List.mem_map]
  constructor
  · rintro ⟨d, hd, rfl⟩
    obtain ⟨hd, hwarned⟩ := List.mem_filter.1 hd
    obtain ⟨f, hf, hd⟩ := List.mem_filterMap.1 hd
    cases (tagDiagnostic?_eq_some_iff hf).1 hd with
    | unknown hargument hoperator hunknown =>
        exact ⟨f, hf, _, hargument, by rw [hoperator]; rfl, hunknown, rfl⟩
    | notAllowed => cases hwarned
  · rintro ⟨f, hf, a, hargument, hop, hunknown, rfl⟩
    obtain ⟨o, hoperator⟩ := Option.isSome_iff_exists.1 hop
    refine ⟨_, List.mem_filter.2 ⟨List.mem_filterMap.2 ⟨f, hf,
      (tagDiagnostic?_eq_some_iff hf).2 (.unknown hargument hoperator hunknown)⟩, ?_⟩, rfl⟩
    rfl

theorem pairwise_unknownArguments (t : Text) :
    (parse t).unknownArguments.Pairwise fun a b => a.start < b.start := by
  rw [unknownArguments, filter_isUnknownArgument_diagnostics, List.pairwise_map]
  exact (pairwise_start_tagDiagnostics t).sublist List.filter_sublist

/-- What is shown as an unknown argument is warned of, and nothing else is. -/
theorem map_span_invalidArgument (t : Text) :
    ((parse t).highlights.filter fun h => h.tag = .invalidArgument).map Highlight.span
      = (parse t).unknownArguments := by
  have hirrefl : Std.Irrefl fun a b : Span => a.start < b.start := ⟨fun _ => Nat.lt_irrefl _⟩
  have hantisymm : Std.Antisymm fun a b : Span => a.start < b.start :=
    ⟨fun _ _ hab hba => absurd hab (Nat.lt_asymm hba)⟩
  -- both rows come in the order of their starts, so it is enough that they have the same members
  refine List.Pairwise.eq_of_mem_iff (r := fun a b => a.start < b.start) ?_
    (pairwise_unknownArguments t) fun s => ?_
  · have hrow := pairwise_highlights t
    rw [List.pairwise_map] at hrow ⊢
    refine (hrow.imp_of_mem fun {a b} ha _ hab => ?_).sublist List.filter_sublist
    exact Nat.lt_of_lt_of_le (start_lt_stop_of_mem_highlights ha) hab
  · rw [mem_unknownArguments_iff, ← mem_highlights_argumentVerdict_iff]
    constructor
    · intro hs
      obtain ⟨h, hh, rfl⟩ := List.mem_map.1 hs
      obtain ⟨hh, htag⟩ := List.mem_filter.1 hh
      have hverdict : h.tag = argumentVerdict false := of_decide_eq_true htag
      rw [← hverdict]
      exact hh
    · intro hs
      exact List.mem_map.2 ⟨_, List.mem_filter.2 ⟨hs, rfl⟩, rfl⟩

/-- In a text without errors every token is one of the language. -/
theorem kind_ne_unknown (herrors : syntaxErrors (parse t) = []) {x : Token}
    (hx : x ∈ (parse t).tokens) : x.kind ≠ .unknown := by
  intro hk
  have hclean : problemsFrom 0 (parse t) = [] := by simpa [syntaxErrors] using herrors
  have hreports : reports (tokenize t) = [] := by
    rw [← problemsFrom_parseTokens fun _ hx => isLexeme_of_mem_tokenize hx]
    exact hclean
  have hnone := unexpected_reports (tokenize t)
  rw [hreports, unexpected, List.filter_nil, unexpectedFrom, eq_comm, List.map_eq_nil_iff,
    List.filter_eq_nil_iff] at hnone
  have hkinds := map_tokens_parseTokens (f := fun x => decide (x.kind = .unknown))
    (fun x hx => by cases hxk : x.kind <;> simp_all [TokenKind.isKeyword]) (tokenize t)
  have hmem : true ∈ (tokenize t).map fun x => decide (x.kind = .unknown) := by
    rw [← hkinds]
    exact List.mem_map.2 ⟨x, hx, decide_eq_true hk⟩
  obtain ⟨y, hy, hyk⟩ := List.mem_map.1 hmem
  obtain ⟨before, after, hsplit⟩ := List.append_of_mem hy
  refine hnone ⟨y, 0 + tokensWidth before⟩ ?_ hyk
  rw [hsplit, placeTokens_append, placeTokens]
  simp

/-- In a text without errors nothing is shown as invalid. -/
theorem tag_ne_invalid (herrors : syntaxErrors (parse t) = []) {h : Highlight}
    (hh : h ∈ (parse t).highlights) : h.tag ≠ .invalid := by
  intro htag
  obtain ⟨f, hf, x, htree, -, hshown⟩ := mem_highlights_iff.1 hh
  rw [htag] at hshown
  have hplace := (List.mem_filter.1 hf).1
  rcases highlightTag?_eq_invalid hshown with herror | hunknown
  · obtain ⟨p, hp, cs, hcs, -⟩ := exists_parent_of_parentKind? hplace herror
    have hclean := all_of_mem_focuses (all_ne_error_parse herrors) hp
    rw [hcs, all_node] at hclean
    exact hclean.1 rfl
  · refine kind_ne_unknown herrors ?_ hunknown
    exact (standsIn_of_mem_focuses hplace).mem_tokens (by simp [htree])

/-- **Highlighting covers the text and agrees with the diagnostics.** The highlighted ranges are
those of the tokens but the blanks, each once and in order. The ranges shown as unknown arguments
are those of the warnings about them, and a range is shown as an argument just when it is that of a
known one in a tag with a comparison. In a text without syntax errors nothing is shown as
invalid. -/
theorem highlights_agree (t : Text) :
    (parse t).highlights.map Highlight.span
        = ((placeTokens 0 (tokenize t)).filter fun p => !p.token.isBlank).map PlacedToken.span ∧
      ((parse t).highlights.map Highlight.span).Pairwise (fun a b => a.stop ≤ b.start) ∧
      ((parse t).highlights.filter fun h => h.tag = .invalidArgument).map Highlight.span
        = (parse t).unknownArguments ∧
      (∀ s, ⟨s, .argument⟩ ∈ (parse t).highlights ↔
        ∃ f ∈ (parse t).tags, ∃ a, f.child? .argument = some a ∧
          (f.child? .operator).isSome = true ∧ isArgument a.tree.text = true ∧ a.span = s) ∧
      (syntaxErrors (parse t) = [] → ∀ h ∈ (parse t).highlights, h.tag ≠ .invalid) := by
  refine ⟨map_span_highlights t, pairwise_highlights t, map_span_invalidArgument t, fun s => ?_,
    fun herrors _ => tag_ne_invalid herrors⟩
  exact @mem_highlights_argumentVerdict_iff t true s

/-- A text without syntax errors that asks for an unknown argument, and has a bare word behind a
sign. -/
theorem highlights_agree_sample :
    syntaxErrors (parse "-elf zz:a".toList) = [] ∧
      ((parse "-elf zz:a".toList).highlights.filter fun h => h.tag = .invalidArgument).map
        Highlight.span = [⟨5, 7⟩] ∧
      ∀ h ∈ (parse "-elf zz:a".toList).highlights, h.tag ≠ .invalid := by
  have herrors : syntaxErrors (parse "-elf zz:a".toList) = [] := by decide +kernel
  have hwarned : (parse "-elf zz:a".toList).unknownArguments = [⟨5, 7⟩] := by decide +kernel
  obtain ⟨-, -, hinvalid, -, hall⟩ := highlights_agree "-elf zz:a".toList
  exact ⟨herrors, hinvalid.trans hwarned, hall herrors⟩

end Tree

end CardQuery
