import CardQuery.Editor.Tooltip
import CardQuery.Proofs.Editor.Highlighting

/-!
# Verdicts on arguments

A tooltip calls the word of a tag unknown without a look at the comparison, and a warning is only
given where there is one. So the two agree on every tag with a comparison, and disagree on a name
that is asked for behind a sign: the tooltip calls it an argument that is not recognized, and
nothing is warned of.

Main statement: `Tree.tooltip_unrecognized_iff`.
-/

set_option autoImplicit false

namespace CardQuery

/-! ## What a tooltip says -/

namespace TooltipContent

/-- Whether a tooltip says that an argument is not recognized: it is one line, which ends so. -/
def IsUnrecognized (c : TooltipContent) : Prop :=
  '\n' ∉ c.text ∧ " - not a recognized argument".toList <:+ c.text

/-- A help text has two lines. -/
theorem not_isUnrecognized_help (name : Text) (g : AliasGroup) :
    ¬ (help name g).IsUnrecognized := fun h => h.1 (by simp [text])

theorem not_isUnrecognized_node (k : NodeKind) : ¬ (node k).IsUnrecognized := by
  have hsuffix : ¬ " - not a recognized argument".toList <:+ (node k).text := by
    unfold text
    cases k with
    | literal k => cases k <;> decide +kernel
    | binary op => cases op <;> decide +kernel
    | _ => decide +kernel
  exact fun h => hsuffix h.2

theorem isUnrecognized_unknownArgument {name : Text} (h : '\n' ∉ name) :
    (unknownArgument name).IsUnrecognized := by
  refine ⟨?_, name, rfl⟩
  have hsuffix : '\n' ∉ " - not a recognized argument".toList := by decide +kernel
  simpa only [text, List.mem_append, not_or] using ⟨h, hsuffix⟩

end TooltipContent

/-- The tooltip of a tag says so when the argument is not known. -/
theorem Tooltip.isUnrecognized_ofTag {tag : TagAtCursor} (h : '\n' ∉ tag.argument.text) :
    (Tooltip.ofTag tag).content.IsUnrecognized ↔ isArgument tag.argument.text = false := by
  unfold ofTag isArgument
  cases aliasGroup? tag.argument.text with
  | none => simp [TooltipContent.isUnrecognized_unknownArgument h]
  | some g => simp [TooltipContent.not_isUnrecognized_help]

namespace Tree

variable {t : Text}

/-! ## The word of an argument -/

/-- An argument stands on one line. -/
theorem newline_notMem_argument {f a : Focus} (hf : f ∈ (parse t).focuses)
    (ha : f.child? .argument = some a) : '\n' ∉ a.tree.text := by
  obtain ⟨haplace, -, -⟩ := arranged_of_child? hf ha
  obtain ⟨g, w, hchildren, hw, hkind, htext, -⟩ := exists_word_of_argument hf ha
  have hgplace := (mem_focuses_of_mem_children (c := g) haplace (by simp [hchildren])).1
  have hmem : w ∈ (parse t).tokens :=
    (standsIn_of_mem_focuses hgplace).mem_tokens (by simp [hw])
  rw [htext]
  intro hnewline
  have hchar := isWordChar_of_mem_tokens_parse hmem (Or.inl hkind) '\n' hnewline
  revert hchar
  decide

/-! ## The reported tag -/

/-- The argument that is reported at an offset is that of the tag under it. -/
theorem exists_tagAt?_iff {offset : Nat} {p : Text → Prop} :
    (∃ tag ∈ (parse t).tagAt? offset, p tag.argument.text) ↔
      ∃ f, (parse t).IsTagUnder offset f ∧ ∃ a, f.child? .argument = some a ∧ p a.tree.text := by
  simp only [tagAt?, Option.mem_def, Option.bind_eq_bind, Option.bind_eq_some_iff, Option.pure_def,
    Option.some.injEq, ancestorAt?_isTag_iff]
  constructor
  · rintro ⟨tag, ⟨f, hf, a, ha, rfl⟩, hp⟩
    exact ⟨f, hf, a, ha, hp⟩
  · rintro ⟨f, hf, a, ha, hp⟩
    exact ⟨_, ⟨f, hf, a, ha, rfl⟩, hp⟩

/-- A tooltip calls an argument unrecognized just when it is that of the tag under the offset, and
is not known. -/
theorem isUnrecognized_tooltipAt?_iff {offset : Nat} :
    (∃ tip ∈ (parse t).tooltipAt? offset, tip.content.IsUnrecognized) ↔
      ∃ f, (parse t).IsTagUnder offset f ∧ ∃ a, f.child? .argument = some a ∧
        isArgument a.tree.text = false := by
  rw [← exists_tagAt?_iff (p := fun name => isArgument name = false), tooltipAt?]
  cases htag : (parse t).tagAt? offset with
  | some tag =>
      obtain ⟨f, hf, a, ha, hname⟩ :=
        (exists_tagAt?_iff (p := (tag.argument.text = ·))).1 ⟨tag, htag, rfl⟩
      have hline : '\n' ∉ tag.argument.text := by
        rw [hname]
        exact newline_notMem_argument (mem_focuses_of_mem_terms (mem_terms_of_mem_tags hf.1)) ha
      simp [Tooltip.isUnrecognized_ofTag hline]
  | none =>
      -- elsewhere a node is named
      simp only [Option.mem_def, reduceCtorEq, false_and, exists_false, iff_false]
      rintro ⟨tip, htip, hsays⟩
      simp only [Option.bind_eq_bind, Option.bind_eq_some_iff, Option.pure_def,
        Option.some.injEq] at htip
      obtain ⟨_, _, _, _, k, _, rfl⟩ := htip
      exact TooltipContent.not_isUnrecognized_node k hsays

/-! ## What is warned of -/

/-- Whether the diagnostics of a tree warn of the argument of a tag. -/
def Warns (t : Tree) (f : Focus) : Prop :=
  ∃ a, f.child? .argument = some a ∧ a.span ∈ t.unknownArguments

/-- Two tags whose arguments start at the same byte are one. -/
theorem eq_of_argument_start {f g a b : Focus} (hf : f ∈ (parse t).tags)
    (hg : g ∈ (parse t).tags) (ha : f.child? .argument = some a)
    (hb : g.child? .argument = some b) (hstart : a.start = b.start) : f = g := by
  have hcovers : ∀ {f a : Focus}, f ∈ (parse t).tags → f.child? .argument = some a →
      (parse t).IsTagUnder a.start f := by
    intro f a hf ha
    have hplace := mem_focuses_of_mem_terms (mem_terms_of_mem_tags hf)
    obtain ⟨hstart, hstop⟩ := bounds_of_mem_children (List.mem_of_find?_eq_some ha)
    have hpos := start_lt_stop_of_child? hplace rfl ha
    exact ⟨hf, Or.inl ((covers_iff hf).2 ⟨hstart, Nat.lt_of_lt_of_le hpos hstop⟩)⟩
  have hunder := hcovers hf ha
  rw [hstart] at hunder
  exact hunder.eq (hcovers hg hb)

theorem warns_iff {f a : Focus} (hf : f ∈ (parse t).tags) (ha : f.child? .argument = some a) :
    (parse t).Warns f ↔
      (f.child? .operator).isSome = true ∧ isArgument a.tree.text = false := by
  constructor
  · rintro ⟨b, hb, hspan⟩
    obtain rfl : a = b := Option.some.inj (ha.symm.trans hb)
    obtain ⟨g, hg, c, hc, hop, hunknown, hsame⟩ := mem_unknownArguments_iff.1 hspan
    obtain rfl := eq_of_argument_start hg hf hc ha (congrArg Span.start hsame)
    obtain rfl : c = a := Option.some.inj (hc.symm.trans ha)
    exact ⟨hop, hunknown⟩
  · rintro ⟨hop, hunknown⟩
    exact ⟨a, ha, mem_unknownArguments_iff.2 ⟨f, hf, a, ha, hop, hunknown, rfl⟩⟩

/-- A tag without a comparison has a sign. -/
theorem isSome_sign_of_operator_none {f : Focus} (hf : f ∈ (parse t).tags)
    (hop : f.child? .operator = none) : (f.child? .sign).isSome = true := by
  obtain ⟨cs, htree, harranged⟩ :=
    exists_arranged (mem_focuses_of_mem_terms (mem_terms_of_mem_tags hf)) (List.mem_filter.1 hf).2
  have hno : cs.find? (isKind .operator) = none := by
    have hmap := f.map_tree_child? .operator
    rw [hop, htree] at hmap
    exact hmap.symm
  have hsign : (cs.find? (isKind .sign)).isSome = true := by
    cases tagParts_of_parts harranged.parts with
    | loneSign hs => simp [isKind, hs]
    | bare hs hw => simp [isKind, hs]
    | comparing hsign hx hop hvalue => simp [isKind, hop] at hno
  have hmap := f.map_tree_child? .sign
  rw [htree] at hmap
  rw [← Option.isSome_map, hmap]
  exact hsign

/-- **Tooltips and warnings agree but for names behind a sign.** A tooltip calls an argument
unrecognized just when it is warned of for the tag under the offset, or the tag has no comparison
and its word is not known. A tag without a comparison only asks for a name behind a sign, and is
never warned of. -/
theorem tooltip_unrecognized_iff (t : Text) (offset : Nat) :
    ((∃ tip ∈ (parse t).tooltipAt? offset, tip.content.IsUnrecognized) ↔
      ∃ f, (parse t).IsTagUnder offset f ∧ ((parse t).Warns f ∨
        f.child? .operator = none ∧
          ∃ a, f.child? .argument = some a ∧ isArgument a.tree.text = false)) ∧
    ∀ f ∈ (parse t).tags, f.child? .operator = none →
      (f.child? .sign).isSome = true ∧ ¬ (parse t).Warns f := by
  constructor
  · rw [isUnrecognized_tooltipAt?_iff]
    refine exists_congr fun f => and_congr_right fun hf => ?_
    constructor
    · rintro ⟨a, ha, hunknown⟩
      cases hop : f.child? .operator with
      | none => exact Or.inr ⟨rfl, a, ha, hunknown⟩
      | some o => exact Or.inl ((warns_iff hf.1 ha).2 ⟨by rw [hop]; rfl, hunknown⟩)
    · rintro (⟨a, ha, hspan⟩ | ⟨-, hname⟩)
      · exact ⟨a, ha, ((warns_iff hf.1 ha).1 ⟨a, ha, hspan⟩).2⟩
      · exact hname
  · intro f hf hop
    refine ⟨isSome_sign_of_operator_none hf hop, ?_⟩
    rintro ⟨a, ha, hspan⟩
    have hsome := ((warns_iff hf ha).1 ⟨a, ha, hspan⟩).1
    rw [hop] at hsome
    cases hsome

/-- In the value of a comparison the argument is called unrecognized, and so it is warned of. -/
theorem tooltip_unrecognized_iff_in_value :
    ∃ f, (parse "zz:top".toList).IsTagUnder 4 f ∧ (parse "zz:top".toList).Warns f := by
  have hsays : ∃ tip ∈ (parse "zz:top".toList).tooltipAt? 4, tip.content.IsUnrecognized :=
    ⟨⟨.unknownArgument "zz".toList, 0⟩, by decide +kernel,
      TooltipContent.isUnrecognized_unknownArgument (by decide +kernel)⟩
  have hcompared : ∀ f ∈ (parse "zz:top".toList).tags, (f.child? .operator).isSome = true := by
    decide +kernel
  obtain ⟨f, hf, hwarned | ⟨hop, -⟩⟩ := (tooltip_unrecognized_iff "zz:top".toList 4).1.1 hsays
  · exact ⟨f, hf, hwarned⟩
  · have hsome := hcompared f hf.1
    rw [hop] at hsome
    cases hsome

/-- A name behind a sign is called an unrecognized argument, and nothing is warned of. -/
theorem signed_name_unrecognized :
    (parse "-goblin".toList).tooltipAt? 3
        = some ⟨.unknownArgument "goblin".toList, 1⟩ ∧
      (TooltipContent.unknownArgument "goblin".toList).text
        = "goblin - not a recognized argument".toList ∧
      (parse "-goblin".toList).diagnostics = [] := by
  decide +kernel

end Tree

end CardQuery
