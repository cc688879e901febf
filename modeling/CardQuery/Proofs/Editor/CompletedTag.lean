import CardQuery.Editor.Completion
import CardQuery.Proofs.Cursor.Exact
import CardQuery.Proofs.Cursor.Touching

/-!
# The tag that is completed and what is known around it

Completion looks at the token in front of an offset, and what is known at an offset is looked up
from the token behind it first. So the two agree on the tag that is edited unless another term
begins right there, with no blank between. Where they agree, the tag itself does not count: what is
known is the same with any other expression in its place (`constraints_of_completedTag`).

Main statement: `current_of_completedTag_iff`.
-/

set_option autoImplicit false

namespace CardQuery

/-- The tag whose value is completed at an offset. -/
def Tree.completedTag? (t : Tree) (offset : Nat) : Option Focus :=
  match t.completionContext? offset with
  | some (.value ..) =>
    (t.tokensAt offset).getLast?.bind fun f => f.ancestors.find? fun a => a.tree.isKind .tag
  | _ => none

/-! ## The token in front of the offset -/

/-- A value is completed behind the start of a token in a tag. -/
theorem Focus.of_completionContext?_value {f : Focus} {offset start : Nat} {tag : Tree}
    {typed : Text} (h : f.completionContext? offset = some (.value tag start typed)) :
    f.start < offset ∧ f.tag? = some tag := by
  unfold completionContext? at h
  split at h
  · split at h <;> cases h
  · next hbehind =>
      have hlt : f.start < offset := Nat.lt_of_not_le hbehind
      split at h
      · cases h
      · cases h
      · cases h
      · cases h
      · obtain ⟨tag', htag, heq⟩ := Option.map_eq_some_iff.1 h
        cases heq
        exact ⟨hlt, htag⟩
      · split at h
        · next htag =>
            cases h
            exact ⟨hlt, htag⟩
        · cases h
      · split at h
        · next htag =>
            cases h
            exact ⟨hlt, htag⟩
        · cases h
      · obtain ⟨tag', htag, heq⟩ := Option.map_eq_some_iff.1 h
        cases heq
        exact ⟨hlt, htag⟩
      · cases h

namespace Tree

variable {offset : Nat} {tag : Focus}

/-- The tag that is completed stands around the token in front of the offset. -/
theorem exists_of_completedTag? {t : Tree} (h : t.completedTag? offset = some tag) :
    (∃ start typed, t.completionContext? offset = some (.value tag.tree start typed)) ∧
      ∃ f ∈ t.leaves, f.start < offset ∧ offset ≤ f.stop ∧ tag ∈ f.ancestors ∧
        tag.isTerm = true := by
  unfold completedTag? at h
  split at h
  · next tree start typed hcontext =>
      obtain ⟨f, hf, hfind⟩ := Option.bind_eq_some_iff.1 h
      have hmem := List.mem_of_find?_eq_some hfind
      have hkind : tag.tree.isKind .tag = true := by simpa using List.find?_some hfind
      rw [completionContext?, hf] at hcontext
      obtain ⟨hbehind, htag⟩ := Focus.of_completionContext?_value hcontext
      have htree : tree = tag.tree := by
        rw [Focus.tag?, hfind] at htag
        exact (Option.some.inj htag).symm
      obtain ⟨hleaf, htouch⟩ := mem_tokensAt.1 (List.mem_of_getLast? hf)
      refine ⟨⟨start, typed, ?_⟩, f, hleaf, hbehind, by omega, hmem, ?_⟩
      · rw [completionContext?, hf, hcontext, htree]
      · have hsome : tag.tree.kind? = some .tag := by simpa [isKind] using hkind
        rw [Focus.isTerm, hsome]
  · cases h

/-- Where a value is completed, there is a tag that it is the value of. -/
theorem exists_completedTag?_of_value {t tree : Tree} {start : Nat} {typed : Text}
    (h : t.completionContext? offset = some (.value tree start typed)) :
    ∃ tag, t.completedTag? offset = some tag ∧ tag.tree = tree := by
  rw [completedTag?, h]
  unfold completionContext? at h
  split at h
  · cases h
  · next f hf =>
      obtain ⟨-, htag⟩ := Focus.of_completionContext?_value h
      obtain ⟨tag, hfind, htree⟩ := Option.map_eq_some_iff.1 htag
      exact ⟨tag, by rw [hf]; exact hfind, htree⟩

end Tree

/-! ## What is known does not depend on the tag -/

/-- What is above a subtree does not depend on it, only on whether it is a region. -/
theorem constraintsAbove_congr {x y : Tree}
    (h : x.kind?.any NodeKind.isRegion = y.kind?.any NodeKind.isRegion) (above : List Step) :
    constraintsAbove x above = constraintsAbove y above := by
  induction above generalizing x y with
  | nil => rfl
  | cons s above ih =>
      have hrest : constraintsAbove (s.fill x) above = constraintsAbove (s.fill y) above := ih rfl
      rw [constraintsAbove, constraintsAbove, h, hrest]

/-- The domain of a text is another part of it than what stands in a query. -/
theorem Climb.domain?_eq {above : List Step} (h : Climb above)
    (hquery : (above.any fun s => s.kind = .query) = true) (x y : Tree) :
    (Focus.wholeFrom x above).domain? = (Focus.wholeFrom y above).domain? := by
  induction h generalizing x y with
  | program hs => simp [hs] at hquery
  | domain hs _ hp => simp [hs, hp] at hquery
  | @queryBody s q p hs _ hq =>
      have hnot : ∀ z : Tree, (q.fill (s.fill z)).isKind .domain = false := by
        intro z
        rw [Step.fill, hq]
        rfl
      show (p.fill (q.fill (s.fill x))).domain? = (p.fill (q.fill (s.fill y))).domain?
      rw [domain?_fill (hnot x), domain?_fill (hnot y)]
  | @clause s above hs _ _ ih =>
      exact ih (by simpa [hs] using hquery) (s.fill x) (s.fill y)
  | @binary op s above hs _ _ _ ih =>
      exact ih (by simpa [hs] using hquery) (s.fill x) (s.fill y)

/-- What the domain says to a place in a query does not depend on what stands there. -/
theorem Climb.sharedWith_eq {above : List Step} (h : Climb above) (x y : Tree) (start : Nat) :
    (Focus.wholeFrom x above).sharedWith ⟨x, start, above⟩
      = (Focus.wholeFrom y above).sharedWith ⟨y, start, above⟩ := by
  have hsame : (Focus.mk x start above).inQuery = (Focus.mk y start above).inQuery := rfl
  rw [Tree.sharedWith, Tree.sharedWith, hsame]
  split
  · next hquery => rw [h.domain?_eq hquery x y]
  · rfl

/-- At a term, what is known is the same with any other expression in its place. -/
theorem constraints_of_other_term {t : Text} {offset : Nat} {c : Focus}
    (hc : ((parse t).constraintsAt offset).current = some c) (hterm : c.isTerm = true) {x : Tree}
    (hx : x.isExpression = true) :
    ((parse t).constraintsAt offset).constraints
      = (constraintsAbove x c.above).append
          ((Focus.wholeFrom x c.above).sharedWith ⟨x, c.start, c.above⟩) := by
  rw [Tree.current_constraintsAt] at hc
  have hwhole : Focus.wholeFrom c.tree c.above = parse t := Tree.whole_of_currentAt? hc
  have horder : c.whole.OrderlyProgram := by
    rw [Focus.whole, hwhole]
    exact orderlyProgram_parse t
  have hregion : x.kind?.any NodeKind.isRegion = c.tree.kind?.any NodeKind.isRegion := by
    rw [not_isRegion_of_isExpression hx,
      not_isRegion_of_isExpression (Focus.isExpression_of_isTerm hterm)]
  calc ((parse t).constraintsAt offset).constraints
      = (constraintsAbove c.tree c.above).append ((parse t).sharedWith c) :=
        Tree.constraints_of_isTerm hc hterm
    _ = (constraintsAbove x c.above).append
          ((Focus.wholeFrom c.tree c.above).sharedWith ⟨c.tree, c.start, c.above⟩) := by
        rw [constraintsAbove_congr hregion, hwhole]
    _ = _ := by rw [(Focus.climb horder hterm).sharedWith_eq c.tree x c.start]

/-- **Completion and what is known agree on the tag that is edited just when no other term begins
at the offset.** The value of a tag is completed behind the start of the tag and up to its end.
Where no term begins, the offset is in this tag, and the tag does not count: what is known is the
same with any other expression in its place. A term that begins there is what the offset is in. -/
theorem Tree.current_of_completedTag_iff {t : Text} {offset : Nat} {tag : Focus}
    (h : (parse t).completedTag? offset = some tag) :
    (∃ start typed, (parse t).completionContext? offset = some (.value tag.tree start typed)) ∧
      tag ∈ (parse t).terms ∧ (tag.start < offset ∧ offset ≤ tag.stop) ∧
      (((parse t).constraintsAt offset).current = some tag ↔
        ∀ c ∈ (parse t).terms, c.start ≠ offset) ∧
      (∀ c ∈ (parse t).terms, c.start = offset →
        ((parse t).constraintsAt offset).current = some c) ∧
      (((parse t).constraintsAt offset).current = some tag → ∀ x : Tree, x.isExpression = true →
        ((parse t).constraintsAt offset).constraints
          = (constraintsAbove x tag.above).append
              ((Focus.wholeFrom x tag.above).sharedWith ⟨x, tag.start, tag.above⟩)) := by
  obtain ⟨hcontext, f, hf, hbehind, hstop, hmem, hterm⟩ := exists_of_completedTag? h
  obtain ⟨-, htagStart, htagStop⟩ := holds_of_mem_ancestors hf hmem
  have hstart : tag.start < offset := by omega
  have hother : ∀ c ∈ (parse t).terms, c.start = offset →
      ((parse t).constraintsAt offset).current = some c := fun c hc hoffset => by
    rw [current_constraintsAt]
    exact currentAt?_of_start hc hoffset
  refine ⟨hcontext, mem_terms_of_mem_ancestors hf hmem hterm, ⟨hstart, by omega⟩, ⟨?_, ?_⟩, hother,
    fun hcurrent x hx => constraints_of_other_term hcurrent hterm hx⟩
  · intro hcurrent c hc hoffset
    rw [hother c hc hoffset, Option.some.injEq] at hcurrent
    rw [hcurrent] at hoffset
    omega
  · intro hfree
    rw [current_constraintsAt]
    exact currentAt?_of_behind hf ⟨hbehind, hstop⟩ hmem hterm hfree

/-- At the end of a value in a query, with a blank behind it. -/
theorem Tree.current_of_completedTag_before_blank :
    ∃ tag, (parse "c:u\nq: t:elf o:a".toList).completedTag? 12 = some tag ∧
      ((parse "c:u\nq: t:elf o:a".toList).constraintsAt 12).current = some tag := by
  have hsome : ((parse "c:u\nq: t:elf o:a".toList).completedTag? 12).isSome = true := by
    decide +kernel
  have hfree : ∀ c ∈ (parse "c:u\nq: t:elf o:a".toList).terms, c.start ≠ 12 := by
    decide +kernel
  obtain ⟨tag, htag⟩ := Option.isSome_iff_exists.1 hsome
  exact ⟨tag, htag, (current_of_completedTag_iff htag).2.2.2.1.2 hfree⟩

/-- A catalog with one artist. -/
def oneArtist : Catalog :=
  { Catalog.initial with artistNames := ["b".toList] }

/-- **A tag that stands in its own way.** Behind the value of `a:b` begins another term, so what is
known there includes the tag itself, and its own candidate is not offered as it is without the
other term. -/
theorem completedTag_not_current :
    ∃ tag, (parse "a:b\"x\"".toList).completedTag? 3 = some tag ∧
      ((parse "a:b\"x\"".toList).constraintsAt 3).current ≠ some tag ∧
      QueryTag.ofTerm? tag.tree = some ⟨none, ['a'], [':'], ['b']⟩ ∧
      ((parse "a:b\"x\"".toList).constraintsAt 3).constraints.required
        = [⟨none, ['a'], [':'], ['b']⟩] ∧
      (parse "a:b\"x\"".toList).completionsAt? oneArtist .initial 3 = some ⟨2, []⟩ ∧
      (parse "a:b".toList).completionsAt? oneArtist .initial 3
        = some ⟨2, [.ofCandidate (.ofLabel ['b']) ['b'] 10]⟩ := by
  have htag : ((parse "a:b\"x\"".toList).completedTag? 3).map
      (fun tag => (tag.start, QueryTag.ofTerm? tag.tree))
      = some (0, some ⟨none, ['a'], [':'], ['b']⟩) := by decide +kernel
  have hcurrent : ((parse "a:b\"x\"".toList).constraintsAt 3).current.map Focus.start
      = some 3 := by decide +kernel
  obtain ⟨tag, hsome, hparts⟩ := Option.map_eq_some_iff.1 htag
  obtain ⟨hstart, hterm⟩ := Prod.mk.inj hparts
  refine ⟨tag, hsome, fun heq => ?_, hterm, by decide +kernel, by decide +kernel, by decide +kernel⟩
  rw [heq, Option.map_some, hstart] at hcurrent
  cases hcurrent

end CardQuery
