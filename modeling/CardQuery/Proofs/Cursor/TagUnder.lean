import CardQuery.Proofs.Cursor.Touching

/-!
# The tag under the cursor

An offset is looked up through the tokens that touch it and what stands around them. A tag is never
in a tag and never empty, so this finds a tag by its range alone: the one that has the offset at its
start or inside it, and without such a tag the one that ends at the offset. What is reported of the
tag is what it is made of, each part where the one before it ends.

Main statements: the search finds the tag under the offset (`ancestorAt?_isTag_iff`), and what is
reported at an offset (`tagAt?_describes`).
-/

set_option autoImplicit false

namespace CardQuery

/-! ## The tag under an offset -/

/-- Whether a place has an offset at its start or strictly inside it. -/
def Focus.Covers (f : Focus) (offset : Nat) : Prop :=
  f.start = offset ∨ (f.start < offset ∧ offset < f.stop)

namespace Tree

/-- The places of the tags. -/
def tags (t : Tree) : List Focus :=
  t.nodes.filter fun f => f.tree.isKind .tag

/-- Whether a place is that of the tag under an offset: a tag that covers the offset or, when there
is none, a tag that ends at it. -/
def IsTagUnder (t : Tree) (offset : Nat) (f : Focus) : Prop :=
  f ∈ t.tags ∧
    (f.Covers offset ∨ (f.stop = offset ∧ ∀ g ∈ t.tags, ¬ g.Covers offset))

variable {t : Text} {offset : Nat} {f g : Focus}

theorem isTerm_of_isTag (h : f.tree.isKind .tag = true) : f.isTerm = true := by
  have hkind : f.tree.kind? = some .tag := by simpa [isKind] using h
  simp [Focus.isTerm, hkind]

theorem mem_terms_of_mem_tags {t : Tree} (hf : f ∈ t.tags) : f ∈ t.terms := by
  obtain ⟨hnode, htag⟩ := List.mem_filter.1 hf
  exact List.mem_filter.2 ⟨hnode, isTerm_of_isTag htag⟩

/-- A tag is not empty, so it covers the bytes of its range. -/
theorem covers_iff (hf : f ∈ (parse t).tags) :
    f.Covers offset ↔ f.start ≤ offset ∧ offset < f.stop := by
  have hpos := width_pos_of_mem_terms (mem_terms_of_mem_tags hf)
  unfold Focus.Covers
  omega

/-- No tag begins before those in front of it end. -/
theorem pairwise_tags (t : Text) : (parse t).tags.Pairwise fun f g => f.stop ≤ g.start := by
  have hsub : (parse t).tags.Sublist (parse t).focuses :=
    List.filter_sublist.trans List.filter_sublist
  refine ((pairwise_focuses (parse t)).sublist hsub).imp_of_mem fun {f g} hf hg h => ?_
  refine h.2.resolve_left fun habove => ?_
  have hterms := isTerm_of_mem_terms (mem_terms_of_mem_tags hf)
  have hwhole : g.whole.OrderlyProgram := by
    rw [whole_of_mem_focusesFrom (hsub.subset hg)]
    exact orderlyProgram_parse t
  rw [Focus.not_isTerm_of_mem_ancestors hwhole
    (isTerm_of_mem_terms (mem_terms_of_mem_tags hg)) habove] at hterms
  cases hterms

/-- A tag with a byte inside is the one that is found from the token at that byte. -/
theorem find?_isTag_of_holds {byte : Nat} (hg : g ∈ (parse t).leaves) (hf : f ∈ (parse t).tags)
    (hgbyte : g.start ≤ byte ∧ byte < g.stop) (hfbyte : f.start ≤ byte ∧ byte < f.stop) :
    (g.ancestors.find? fun c => c.tree.isKind .tag) = some f := by
  have hterm := find?_isTerm_of_holds hg (mem_terms_of_mem_tags hf) hgbyte hfbyte
  obtain ⟨-, below, rest, hsplit, hbelow⟩ := List.find?_eq_some_iff_append.1 hterm
  refine List.find?_eq_some_iff_append.2 ⟨(List.mem_filter.1 hf).2, below, rest, hsplit, ?_⟩
  intro c hc
  have hnot := hbelow c hc
  by_contra htag
  rw [isTerm_of_isTag (by simpa using htag)] at hnot
  cases hnot

/-- What is found from a token is a tag that has the token inside. -/
theorem bounds_of_find?_isTag {t : Tree} (hg : g ∈ t.leaves)
    (hfind : (g.ancestors.find? fun c => c.tree.isKind .tag) = some f) :
    f ∈ t.tags ∧ f.start ≤ g.start ∧ g.stop ≤ f.stop := by
  have hf := List.mem_of_find?_eq_some hfind
  have htag : f.tree.isKind .tag = true := by simpa using List.find?_some hfind
  have hterm := mem_terms_of_mem_ancestors hg hf (isTerm_of_isTag htag)
  exact ⟨List.mem_filter.2 ⟨(List.mem_filter.1 hterm).1, htag⟩, (holds_of_mem_ancestors hg hf).2⟩

/-- A tag that covers an offset is found there: the token at the offset is asked first. -/
theorem ancestorAt?_of_covers (hf : f ∈ (parse t).tags) (hcovers : f.Covers offset) :
    (parse t).ancestorAt? offset (fun c => c.tree.isKind .tag) = some f := by
  have hfbyte := (covers_iff hf).1 hcovers
  obtain ⟨g, hg, hgbyte⟩ :=
    exists_leaf_at (mem_focuses_of_mem_terms (mem_terms_of_mem_tags hf)) hfbyte
  have hfirst : ((parse t).leaves.filter fun f => f.start ≤ offset && offset < f.stop).findSome?
      (fun g => g.ancestors.find? fun c => c.tree.isKind .tag) = some f := by
    refine List.findSome?_eq_some_of_forall (x := g) (fun h hh => Or.inr ?_) ?_ ?_
    · obtain ⟨hh, hhbyte⟩ := List.mem_filter.1 hh
      exact find?_isTag_of_holds hh hf (by simpa using hhbyte) hfbyte
    · exact List.mem_filter.2 ⟨hg, by simpa using hgbyte⟩
    · exact find?_isTag_of_holds hg hf hgbyte hfbyte
  rw [ancestorAt?, tokensAt, List.findSome?_append, hfirst]
  rfl

/-- Where no tag covers the offset, a tag that ends there is found from its last token. -/
theorem ancestorAt?_of_stop (hf : f ∈ (parse t).tags) (hstop : f.stop = offset)
    (hfree : ∀ g ∈ (parse t).tags, ¬ g.Covers offset) :
    (parse t).ancestorAt? offset (fun c => c.tree.isKind .tag) = some f := by
  have hplace := mem_focuses_of_mem_terms (mem_terms_of_mem_tags hf)
  have hpos := width_pos_of_mem_terms (mem_terms_of_mem_tags hf)
  have hfbyte : f.start ≤ offset - 1 ∧ offset - 1 < f.stop := by omega
  obtain ⟨g, hg, hgbyte⟩ := exists_leaf_at hplace hfbyte
  have hfind := find?_isTag_of_holds hg hf hgbyte hfbyte
  have hlast : g.start < offset ∧ offset = g.stop := by
    have hbounds := (bounds_of_find?_isTag hg hfind).2
    omega
  refine List.findSome?_eq_some_of_forall (fun h hh => ?_)
    (mem_tokensAt.2 ⟨hg, Or.inr hlast⟩) hfind
  obtain ⟨hh, htouch | hbehind⟩ := mem_tokensAt.1 hh
  · -- around the token at the offset there is no tag, because it would cover the offset
    refine Or.inl (Option.eq_none_iff_forall_not_mem.2 fun c hc => ?_)
    obtain ⟨hc, hstart, hstop⟩ := bounds_of_find?_isTag hh hc
    exact hfree c hc ((covers_iff hc).2 (by omega))
  · exact Or.inr (find?_isTag_of_holds hh hf (by omega) hfbyte)

/-- **The search from the tokens finds the tag under the offset.** -/
theorem ancestorAt?_isTag_iff :
    (parse t).ancestorAt? offset (fun c => c.tree.isKind .tag) = some f ↔
      (parse t).IsTagUnder offset f := by
  constructor
  · intro h
    obtain ⟨g, hg, hfind⟩ := List.exists_of_findSome?_eq_some h
    obtain ⟨hg, htouch⟩ := mem_tokensAt.1 hg
    obtain ⟨hf, hstart, hstop⟩ := bounds_of_find?_isTag hg hfind
    refine ⟨hf, or_iff_not_imp_left.2 fun hnot => ?_⟩
    have hshort : ¬ offset < f.stop := fun hlt => hnot ((covers_iff hf).2 (by omega))
    refine ⟨by omega, fun c hc hcovers => hnot ?_⟩
    -- a tag that covers the offset would have been found instead
    rw [ancestorAt?_of_covers hc hcovers, Option.some.injEq] at h
    rwa [← h]
  · rintro ⟨hf, hcovers | ⟨hstop, hfree⟩⟩
    · exact ancestorAt?_of_covers hf hcovers
    · exact ancestorAt?_of_stop hf hstop hfree

/-- There is one tag under an offset at most. -/
theorem IsTagUnder.eq (hf : (parse t).IsTagUnder offset f) (hg : (parse t).IsTagUnder offset g) :
    f = g := by
  have hfound := ancestorAt?_isTag_iff.2 hf
  rw [ancestorAt?_isTag_iff.2 hg, Option.some.injEq] at hfound
  exact hfound.symm

/-- The tag under an offset has the offset inside it or at one of its ends. -/
theorem IsTagUnder.touches {t : Tree} (h : t.IsTagUnder offset f) :
    f.start ≤ offset ∧ offset ≤ f.stop := by
  obtain ⟨-, (hstart | hinside) | ⟨hstop, -⟩⟩ := h
  · unfold Focus.stop
    omega
  · omega
  · have hle : f.start ≤ f.stop := Nat.le_add_right _ _
    omega

end Tree

/-! ## The parts of a tag -/

/-- The text of a part, empty when the part is missing. -/
def TagPart.textOf (part : Option TagPart) : Text :=
  (part.map TagPart.text).getD []

/-- What a reported tag says, part by part. -/
def TagAtCursor.written (tag : TagAtCursor) : Text :=
  tag.sign.getD [] ++ tag.argument.text ++ TagPart.textOf tag.operator
    ++ TagPart.textOf tag.value

/-- Whether what is reported is the tag at a place: it has the range and the parts of this tag, and
each part begins where the one before it ends. -/
structure TagAtCursor.Describes (tag : TagAtCursor) (f : Focus) : Prop where
  span_eq : tag.span = f.span
  sign_eq : tag.sign = f.tree.sign?.map Tree.text
  argument_eq : some tag.argument.text = f.tree.argument?.map Tree.text
  operator_eq : tag.operator.map TagPart.text = f.tree.operator?.map Tree.text
  value_eq : tag.value.map TagPart.text = f.tree.value?.map Tree.text
  written_eq : tag.written = f.tree.text
  argument_start : tag.argument.start = tag.span.start + (tag.sign.getD []).width
  operator_start : ∀ part ∈ tag.operator,
    part.start = tag.argument.start + tag.argument.text.width
  value_start : ∀ part ∈ tag.value, part.start
    = tag.argument.start + tag.argument.text.width + (TagPart.textOf tag.operator).width

theorem Focus.map_tree_value? (f : Focus) : f.value?.map Focus.tree = f.tree.value? := by
  rw [Tree.value?, ← map_tree_children, List.find?_map]
  rfl

/-- A tag with an argument is a sign or none, the argument, a comparison or none, and a value or
none. -/
structure TagSplit (cs : List Tree) (sign : Option Tree) (a : Tree) (op value : Option Tree) :
    Prop where
  children_eq : cs = sign.toList ++ a :: (op.toList ++ value.toList)
  sign : ∀ s ∈ sign, s.kind? = some .sign
  argument : a.kind? = some .argument
  operator : ∀ o ∈ op, o.kind? = some .operator
  value : ∀ v ∈ value, v.kind?.any NodeKind.isTagValue = true

theorem TagParts.exists_split {k : NodeKind} {cs : List Tree} {a : Tree} (h : TagParts cs)
    (ha : (Tree.node k cs).argument? = some a) : ∃ sign op value, TagSplit cs sign a op value := by
  cases h with
  | loneSign hs => simp [Tree.argument?, Tree.child?, Tree.children, Tree.isKind, hs] at ha
  | @bare s w hs hw =>
      obtain ⟨hkind, rfl⟩ : w.kind? = some .argument ∧ w = a := by
        simpa [Tree.argument?, Tree.child?, Tree.children, Tree.isKind, hs] using ha
      exact ⟨some s, none, none, rfl, by simpa using hs, hkind, by simp, by simp⟩
  | @comparing sign value x op hsign hx hop hvalue =>
      obtain rfl : x = a := by
        rcases sign with _ | s <;>
          simpa [Tree.argument?, Tree.child?, Tree.children, Tree.isKind, hx, hsign] using ha
      exact ⟨sign, some op, value, rfl, hsign, hx, by simpa using hop, hvalue⟩

namespace TagSplit

variable {cs : List Tree} {sign op value : Option Tree} {a : Tree}

/-- The parts of a tag are found where they stand. -/
theorem found (h : TagSplit cs sign a op value) (start : Nat) (above : List Step) :
    ((Focus.mk (.node .tag cs) start above).child? .sign).map TagPart.ofFocus
        = sign.map (fun s => ⟨s.text, start⟩) ∧
      ((Focus.mk (.node .tag cs) start above).child? .argument).map TagPart.ofFocus
        = some ⟨a.text, start + Tree.widthOf sign.toList⟩ ∧
      ((Focus.mk (.node .tag cs) start above).child? .operator).map TagPart.ofFocus
        = op.map (fun o => ⟨o.text, start + Tree.widthOf sign.toList + a.width⟩) ∧
      (Focus.mk (.node .tag cs) start above).value?.map TagPart.ofFocus = value.map
        fun v => ⟨v.text,
          start + Tree.widthOf sign.toList + a.width + Tree.widthOf op.toList⟩ := by
  obtain ⟨rfl, hsign, ha, hop, hvalue⟩ := h
  have hunsigned : ∀ k : NodeKind, k.isTagValue = false → ∀ v ∈ value, v.kind? ≠ some k := by
    intro k hk v hv hkind
    have hpart := hvalue v hv
    rw [hkind, Option.any_some, hk] at hpart
    cases hpart
  have hnot := hunsigned .sign rfl
  have hnot' := hunsigned .operator rfl
  clear hunsigned
  rcases sign with _ | s <;> rcases op with _ | o <;> rcases value with _ | v <;>
    simp_all [Focus.child?, Focus.value?, Focus.children, Focus.childrenFrom, Tree.isKind,
      NodeKind.isTagValue, Tree.widthOf, TagPart.ofFocus]

theorem text_eq (h : TagSplit cs sign a op value) : (Tree.node .tag cs).text
    = (sign.map Tree.text).getD [] ++ a.text ++ (op.map Tree.text).getD []
      ++ (value.map Tree.text).getD [] := by
  obtain ⟨rfl, -, -, -, -⟩ := h
  rcases sign with _ | s <;> rcases op with _ | o <;> rcases value with _ | v <;>
    simp [Tree.text_node_cons, Tree.text_node_nil]

end TagSplit

theorem Tree.width_getD_text (part : Option Tree) :
    ((part.map text).getD []).width = widthOf part.toList := by
  cases part with
  | none => rfl
  | some c => exact c.width_text

/-- What is reported of a tag is what its parts are and where they stand. -/
theorem Focus.describes_of_split {f c : Focus} {cs : List Tree} {sign op value : Option Tree}
    {a : Tree} (htree : f.tree = .node .tag cs) (h : TagSplit cs sign a op value)
    (hc : f.child? .argument = some c) :
    TagAtCursor.Describes
      { sign := (f.child? .sign).map fun c => c.tree.text
        argument := .ofFocus c
        operator := (f.child? .operator).map .ofFocus
        value := f.value?.map .ofFocus
        span := f.span } f := by
  rcases f with ⟨tree, start, above⟩
  obtain rfl : tree = .node .tag cs := htree
  obtain ⟨hsign, hargument, hoperator, hvalue⟩ := h.found start above
  rw [hc, Option.map_some, Option.some.injEq] at hargument
  have hsign' : ((Focus.mk (.node .tag cs) start above).child? .sign).map (fun c => c.tree.text)
      = sign.map Tree.text := by
    have hmap := congrArg (Option.map TagPart.text) hsign
    rwa [Option.map_map, Option.map_map] at hmap
  constructor
  case span_eq => rfl
  case sign_eq => rw [Tree.sign?, ← map_tree_child?, Option.map_map]; rfl
  case argument_eq => rw [Tree.argument?, ← map_tree_child?, hc]; rfl
  case operator_eq =>
      rw [Tree.operator?, ← map_tree_child?, Option.map_map, Option.map_map]
      rfl
  case value_eq => rw [← map_tree_value?, Option.map_map, Option.map_map]; rfl
  case written_eq =>
      simp only [TagAtCursor.written, TagPart.textOf, hsign', hargument, hoperator, hvalue,
        Option.map_map, h.text_eq]
      rfl
  case argument_start =>
      simp only [hsign', hargument, Tree.width_getD_text]
      rfl
  case operator_start =>
      simp only [hargument, hoperator, a.width_text]
      intro part hpart
      obtain ⟨o, -, rfl⟩ := Option.map_eq_some_iff.1 hpart
      rfl
  case value_start =>
      have htextOf : TagPart.textOf
          (op.map fun o => ⟨o.text, start + Tree.widthOf sign.toList + a.width⟩)
          = (op.map Tree.text).getD [] := by
        rw [TagPart.textOf, Option.map_map]
        rfl
      simp only [hargument, hoperator, hvalue, htextOf, a.width_text, Tree.width_getD_text]
      intro part hpart
      obtain ⟨v, -, rfl⟩ := Option.map_eq_some_iff.1 hpart
      rfl

/-- A tag of a text with an argument has the parts that are reported. -/
theorem Tree.exists_split_of_mem_tags {t : Text} {f c : Focus} (hf : f ∈ (parse t).tags)
    (hc : f.child? .argument = some c) :
    ∃ cs sign a op value, f.tree = .node .tag cs ∧ TagSplit cs sign a op value := by
  obtain ⟨cs, htree, harranged⟩ :=
    exists_arranged (mem_focuses_of_mem_terms (mem_terms_of_mem_tags hf)) (List.mem_filter.1 hf).2
  have hargument : f.tree.argument? = some c.tree := by
    rw [argument?, ← Focus.map_tree_child?, hc, Option.map_some]
  rw [htree] at hargument
  obtain ⟨sign, op, value, hsplit⟩ :=
    (tagParts_of_parts harranged.parts).exists_split hargument
  exact ⟨cs, sign, c.tree, op, value, htree, hsplit⟩

/-- **What is reported at an offset is the tag under it.** For every text and offset: nothing is
reported where no tag is under the offset or the tag there has no argument. What is reported is the
one tag under the offset: its range, which has the offset inside it or at an end, and its parts,
which are the text of this range and begin one where the other ends. -/
theorem tagAt?_describes (t : Text) (offset : Nat) :
    ((parse t).tagAt? offset = none ↔
      ∀ f, (parse t).IsTagUnder offset f → f.tree.argument? = none) ∧
    ∀ tag ∈ (parse t).tagAt? offset,
      (∃ f, (∀ g, (parse t).IsTagUnder offset g ↔ g = f) ∧ tag.Describes f) ∧
        tag.span.start ≤ offset ∧ offset ≤ tag.span.stop ∧ tag.span.Holds t tag.written := by
  have hargument : ∀ f : Focus, f.tree.argument? = none ↔ f.child? .argument = none := fun f => by
    rw [Tree.argument?, ← Focus.map_tree_child?, Option.map_eq_none_iff]
  constructor
  · simp only [Tree.tagAt?, Option.bind_eq_bind, Option.pure_def, Option.bind_eq_none_iff,
      Tree.ancestorAt?_isTag_iff, reduceCtorEq, imp_false]
    refine forall_congr' fun f => imp_congr_right fun _ => ?_
    rw [hargument, Option.eq_none_iff_forall_ne_some]
  · intro tag htag
    simp only [Tree.tagAt?, Option.mem_def, Option.bind_eq_bind, Option.bind_eq_some_iff,
      Option.pure_def, Option.some.injEq] at htag
    obtain ⟨f, hf, c, hc, rfl⟩ := htag
    have hunder := Tree.ancestorAt?_isTag_iff.1 hf
    obtain ⟨cs, sign, a, op, value, htree, hsplit⟩ :=
      Tree.exists_split_of_mem_tags hunder.1 hc
    have hdescribes := Focus.describes_of_split htree hsplit hc
    have hholds := (Tree.standsIn_of_ancestorAt? hf).span_holds
    rw [← hdescribes.written_eq] at hholds
    refine ⟨⟨f, fun g => ⟨fun hg => hg.eq hunder, fun hg => hg ▸ hunder⟩, hdescribes⟩, ?_, ?_, ?_⟩
    · exact hunder.touches.1
    · exact hunder.touches.2
    · exact hholds

/-- Of two tags that touch at an offset, the one that starts there is reported. -/
theorem tagAt?_describes_touching :
    (parse "a:\"b\"-t:elf".toList).tagAt? 5
        = some ⟨some ['-'], ⟨['t'], 6⟩, some ⟨[':'], 7⟩, some ⟨"elf".toList, 8⟩, ⟨5, 11⟩⟩ ∧
      Span.Holds ⟨5, 11⟩ "a:\"b\"-t:elf".toList "-t:elf".toList := by
  have htag : (parse "a:\"b\"-t:elf".toList).tagAt? 5
      = some ⟨some ['-'], ⟨['t'], 6⟩, some ⟨[':'], 7⟩, some ⟨"elf".toList, 8⟩, ⟨5, 11⟩⟩ := by
    decide +kernel
  exact ⟨htag, ((tagAt?_describes "a:\"b\"-t:elf".toList 5).2 _ htag).2.2.2⟩

end CardQuery
