import CardQuery.Proofs.Editor.CompletedTag
import CardQuery.Proofs.Editor.Positions
import Mathlib.Data.List.Infix

/-!
# What is offered

The lists of completion are exact. Where an argument is typed, every spelling that begins with the
typed text is offered, in the order of the table. Where the value of a tag is typed, every candidate
with the typed text in its label is offered that the rest of the query leaves open: once for each
label, as the first candidate with it says, and in two runs, first those whose labels begin with the
typed text.

Main statement: `completionsAt?_isExact`.
-/

set_option autoImplicit false

namespace CardQuery

/-! ## The first candidate of each label -/

/-- The candidates with a label that no earlier one has. -/
def firstOfLabel : List Candidate → List Candidate
  | [] => []
  | c :: cs => c :: (firstOfLabel cs).filter fun d => d.label ≠ c.label

theorem nodup_label_firstOfLabel (cs : List Candidate) :
    ((firstOfLabel cs).map Candidate.label).Nodup := by
  induction cs with
  | nil => exact List.nodup_nil
  | cons c cs ih =>
      rw [firstOfLabel, List.map_cons, List.nodup_cons]
      refine ⟨fun hmem => ?_, ih.sublist (List.filter_sublist.map _)⟩
      obtain ⟨d, hd, hlabel⟩ := List.mem_map.1 hmem
      exact of_decide_eq_true (List.mem_filter.1 hd).2 hlabel

/-- A choice by label can be made before or after. -/
theorem firstOfLabel_filter {p : Candidate → Bool} (hp : ∀ c d, c.label = d.label → p c = p d)
    (cs : List Candidate) : firstOfLabel (cs.filter p) = (firstOfLabel cs).filter p := by
  induction cs with
  | nil => rfl
  | cons c cs ih =>
      cases hc : p c with
      | true =>
          rw [List.filter_cons_of_pos hc, firstOfLabel, firstOfLabel, List.filter_cons_of_pos hc,
            ih, List.filter_comm]
      | false =>
          have hnot : ¬ p c = true := by simp [hc]
          rw [List.filter_cons_of_neg hnot, firstOfLabel, List.filter_cons_of_neg hnot, ih,
            List.filter_filter]
          refine List.filter_congr fun d _ => ?_
          -- what is chosen has another label than `c`
          by_cases hlabel : d.label = c.label
          · simp [hp d c hlabel, hc]
          · simp [hlabel]

/-- Without the items whose label was seen, these are the items of the first candidates. -/
theorem distinctLabels_map {item : Candidate → CompletionItem}
    (hlabel : ∀ c, (item c).label = c.label) (seen : List Text) (cs : List Candidate) :
    distinctLabels seen (cs.map item)
      = ((firstOfLabel cs).filter fun c => c.label ∉ seen).map item := by
  induction cs generalizing seen with
  | nil => rfl
  | cons c cs ih =>
      rw [List.map_cons, distinctLabels, hlabel, firstOfLabel]
      split
      · next hseen =>
          have hmem : c.label ∈ seen := by simpa using hseen
          rw [ih, List.filter_cons_of_neg (by simp [hmem]), List.filter_filter]
          refine congrArg _ (List.filter_congr fun d _ => ?_)
          by_cases hd : d.label = c.label
          · simp [hd, hmem]
          · simp [hd]
      · next hseen =>
          have hmem : c.label ∉ seen := by simpa using hseen
          rw [ih, List.filter_cons_of_pos (by simp [hmem]), List.map_cons, List.filter_filter]
          refine congrArg _ (congrArg _ (List.filter_congr fun d _ => ?_))
          simp [Bool.and_comm]

/-! ## Which candidates are offered -/

theorem Text.contains_iff {needle t : Text} : contains needle t = true ↔ needle <:+: t := by
  induction t with
  | nil => simp [contains]
  | cons c cs ih =>
      rw [contains, Bool.or_eq_true, ih, List.isPrefixOf_iff_prefix, List.infix_cons_iff]

/-- What a tag says with the label of a candidate for its value. -/
def Candidate.asTag (c : Candidate) (argument operator : Text) : QueryTag :=
  ⟨none, argument, operator, writeValue c.label⟩

/-- Whether a candidate is offered for a tag: its label has `needle` in it, in small letters, and
what is known does not decide the tag. -/
def Candidate.IsOffered (c : Candidate) (known : Constraints) (argument operator needle : Text) :
    Prop :=
  needle <:+: c.label.lower ∧ c.asTag argument operator ∉ known.required ∧
    c.asTag argument operator ∉ known.forbidden

instance (c : Candidate) (known : Constraints) (argument operator needle : Text) :
    Decidable (c.IsOffered known argument operator needle) :=
  inferInstanceAs (Decidable (_ ∧ _ ∧ _))

/-- Only the label matters. -/
theorem Candidate.isOffered_congr {c d : Candidate} (h : c.label = d.label) {known : Constraints}
    {argument operator needle : Text} :
    c.IsOffered known argument operator needle ↔ d.IsOffered known argument operator needle := by
  simp only [IsOffered, asTag, h]

/-- How well the label of a candidate fits. -/
def Candidate.fit (c : Candidate) (needle : Text) : Nat :=
  if needle <+: c.label.lower then 10 else 50

theorem fitPriority?_eq (needle : Text) (c : Candidate) :
    fitPriority? needle c.label.lower
      = if needle <:+: c.label.lower then some (c.fit needle) else none := by
  simp only [fitPriority?, Text.contains_iff, List.isPrefixOf_iff_prefix, Candidate.fit]
  by_cases hstarts : needle <+: c.label.lower
  · simp [hstarts, hstarts.isInfix]
  · simp [hstarts]

/-- The items of candidates in two runs: first those whose labels begin with `needle`. -/
def valueRuns (needle : Text) (cs : List Candidate) : List CompletionItem :=
  ((cs.filter fun c => needle <+: c.label.lower).map fun c =>
      .ofCandidate c (writeValue c.label) 10) ++
    (cs.filter fun c => ¬ needle <+: c.label.lower).map fun c =>
      .ofCandidate c (writeValue c.label) 50

theorem map_label_valueRuns_perm (needle : Text) (cs : List Candidate) :
    ((valueRuns needle cs).map CompletionItem.label).Perm (cs.map Candidate.label) := by
  have hruns : (valueRuns needle cs).map CompletionItem.label
      = ((cs.filter fun c => needle <+: c.label.lower) ++
          cs.filter fun c => ¬ needle <+: c.label.lower).map Candidate.label := by
    simp [valueRuns, Function.comp_def, CompletionItem.ofCandidate]
  rw [hruns]
  refine List.Perm.map _ ?_
  simpa using List.filter_append_perm (fun c : Candidate => needle <+: c.label.lower) cs

/-- The item of a candidate by how well its label fits. -/
def Candidate.item (needle : Text) (c : Candidate) : CompletionItem :=
  .ofCandidate c (writeValue c.label) (c.fit needle)

/-- The better fitting items before the others are the two runs. -/
theorem partition_map_item (needle : Text) (cs : List Candidate) :
    ((cs.map (Candidate.item needle)).partition fun i => i.priority = 10).1 ++
      ((cs.map (Candidate.item needle)).partition fun i => i.priority = 10).2
      = valueRuns needle cs := by
  have hfit : ∀ c : Candidate, (c.item needle).priority = 10 ↔ needle <+: c.label.lower := by
    intro c
    show c.fit needle = 10 ↔ _
    unfold Candidate.fit
    split <;> simp_all
  have hruns : ∀ (p : Candidate → Bool) (priority : Nat),
      (∀ c, p c = true → c.fit needle = priority) →
      (cs.filter p).map (Candidate.item needle)
        = (cs.filter p).map fun c => .ofCandidate c (writeValue c.label) priority :=
    fun p priority hp => List.map_congr_left fun c hc => by
      rw [Candidate.item, hp c (List.mem_filter.1 hc).2]
  rw [List.partition_eq_filter_filter, List.filter_map, List.filter_map]
  simp only [Function.comp_def, hfit]
  rw [hruns _ 10, hruns _ 50]
  · simp [valueRuns]
  · intro c hc
    simpa [Candidate.fit] using hc
  · intro c hc
    simpa [Candidate.fit] using hc

section Tag

variable {known : Constraints} {argument operator needle : Text}

/-- The item of a candidate that is offered. -/
theorem valueItem?_eq (c : Candidate) :
    ((fitPriority? needle c.label.lower).bind fun priority =>
        if known.decides ⟨none, argument, operator, writeValue c.label⟩ then none
        else some (CompletionItem.ofCandidate c (writeValue c.label) priority))
      = (Option.guard (fun c => c.IsOffered known argument operator needle) c).map
          (Candidate.item needle) := by
  have hdecides : known.decides ⟨none, argument, operator, writeValue c.label⟩ = true ↔
      c.asTag argument operator ∈ known.required ∨ c.asTag argument operator ∈ known.forbidden := by
    simp [Constraints.decides, Candidate.asTag, QueryTag.positive]
  rw [fitPriority?_eq, Option.guard]
  by_cases hfits : needle <:+: c.label.lower
  · by_cases hknown : known.decides ⟨none, argument, operator, writeValue c.label⟩ = true
    · have hnot : ¬ c.IsOffered known argument operator needle := fun h =>
        (hdecides.1 hknown).elim h.2.1 h.2.2
      simp [hfits, hknown, hnot]
    · have hoffered : c.IsOffered known argument operator needle := by
        have hopen := mt hdecides.2 hknown
        exact ⟨hfits, fun h => hopen (Or.inl h), fun h => hopen (Or.inr h)⟩
      simp [hfits, hknown, hoffered, Candidate.item]
  · have hnot : ¬ c.IsOffered known argument operator needle := fun h => hfits h.1
    simp [hfits, hnot]

/-- The items of a tag are those of the first candidates that are offered. -/
theorem exists_of_valueItems? {root tag : Tree} {catalog : Catalog} {settings : EditorSettings}
    {offset : Nat} {typed : Text} {items : List CompletionItem}
    (h : valueItems? root tag catalog settings offset typed = some items) :
    ∃ a op kind candidates, tag.argument? = some a ∧ tag.operator? = some op ∧
      argumentKind? a.text = some kind ∧ catalog.candidates? settings kind = some candidates ∧
      items = valueRuns typed.lower ((firstOfLabel candidates).filter fun c =>
        c.IsOffered (root.constraintsAt offset).constraints a.text op.text typed.lower) := by
  simp only [valueItems?, Option.bind_eq_bind, Option.bind_eq_some_iff, Option.pure_def,
    Option.some.injEq] at h
  obtain ⟨a, ha, op, hop, kind, hkind, candidates, hcandidates, rfl⟩ := h
  refine ⟨a, op, kind, candidates, ha, hop, hkind, hcandidates, ?_⟩
  have hfirst : ∀ c d : Candidate, c.label = d.label →
      decide (c.IsOffered (root.constraintsAt offset).constraints a.text op.text typed.lower)
        = decide (d.IsOffered (root.constraintsAt offset).constraints a.text op.text typed.lower) :=
    fun c d hlabel => decide_eq_decide.2 (Candidate.isOffered_congr hlabel)
  simp only [valueItem?_eq, ← List.map_filterMap, List.filterMap_eq_filter]
  rw [distinctLabels_map fun _ => rfl, firstOfLabel_filter hfirst]
  simpa using partition_map_item typed.lower _

end Tag

/-! ## The lists -/

theorem map_label_argumentItems (settings : EditorSettings) (typed : Text) :
    (argumentItems settings typed).map CompletionItem.label
      = everyAlias.filter fun name => typed.asciiLower <+: name := by
  have hlabel : ∀ g name, (CompletionItem.ofAlias settings g name).label = name := fun _ _ => rfl
  simp only [argumentItems, everyAlias, List.map_flatMap, List.map_map, Function.comp_def, hlabel,
    List.map_id', List.filter_flatMap, ← List.isPrefixOf_iff_prefix, Bool.decide_eq_true]

/-- What is looked for in a label: the typed text in small letters, without quotes at its start. -/
def needleOf (typed : Text) : Text :=
  Text.lower (typed.dropWhile (· = '"'))

/-- Whether what is offered at an offset is exact, for the text that is typed up to it. -/
inductive CompletionResult.IsExact (r : CompletionResult) (t : Text) (catalog : Catalog)
    (settings : EditorSettings) (offset : Nat) : Prop
  /-- Outside of values: every spelling that begins with the typed text, in the order of the
  table. -/
  | arguments {typed : Text} (typed_eq : t.slice? r.start offset = some typed)
      (tag_eq : (parse t).completedTag? offset = none)
      (kind_eq : ∀ i ∈ r.items, i.kind = .argument)
      (labels_eq : r.items.map CompletionItem.label
        = everyAlias.filter fun name => typed.asciiLower <+: name)
  /-- In the value of a tag: the candidates of its argument that are offered, the first with each
  label, in two runs. -/
  | values {typed : Text} {tag : Focus} {argument operator : Tree} {kind : ArgumentKind}
      {candidates : List Candidate} (typed_eq : t.slice? r.start offset = some typed)
      (tag_eq : (parse t).completedTag? offset = some tag)
      (argument_eq : tag.tree.argument? = some argument)
      (operator_eq : tag.tree.operator? = some operator)
      (kind_eq : argumentKind? argument.text = some kind)
      (candidates_eq : catalog.candidates? settings kind = some candidates)
      (items_eq : r.items = valueRuns (needleOf typed)
        ((firstOfLabel candidates).filter fun c =>
          c.IsOffered ((parse t).constraintsAt offset).constraints argument.text operator.text
            (needleOf typed)))
      (labels_nodup : (r.items.map CompletionItem.label).Nodup)

/-- **The lists of completion are exact**, for any catalog and any settings, in any text. -/
theorem completionsAt?_isExact {t : Text} {offset : Nat} (hoffset : t.IsBoundary offset)
    {catalog : Catalog} {settings : EditorSettings} {r : CompletionResult}
    (h : (parse t).completionsAt? catalog settings offset = some r) :
    r.IsExact t catalog settings offset := by
  unfold Tree.completionsAt? at h
  split at h
  · cases h
  · cases hcontext : (parse t).completionContext? offset with
    | none => simp [hcontext] at h
    | some c =>
        obtain ⟨part, hpart, htyped⟩ := (completionContext?_isCut hoffset hcontext).typed_eq
        cases c with
        | argument start typed =>
            obtain rfl : typed = part := htyped
            simp only [hcontext, Option.some.injEq] at h
            subst h
            have hnone : (parse t).completedTag? offset = none := by
              rw [Tree.completedTag?, hcontext]
            refine .arguments hpart hnone (fun i hi => ?_) (map_label_argumentItems settings typed)
            obtain ⟨g, -, hitem⟩ := List.mem_flatMap.1 hi
            obtain ⟨name, -, rfl⟩ := List.mem_map.1 hitem
            rfl
        | value tree start typed =>
            obtain rfl : typed = part.dropWhile (· = '"') := htyped
            simp only [hcontext, Option.map_eq_some_iff] at h
            obtain ⟨items, hitems, rfl⟩ := h
            obtain ⟨tag, htag, rfl⟩ := Tree.exists_completedTag?_of_value hcontext
            obtain ⟨a, op, kind, candidates, ha, hop, hkind, hcandidates, rfl⟩ :=
              exists_of_valueItems? hitems
            refine .values hpart htag ha hop hkind hcandidates rfl ?_
            rw [(map_label_valueRuns_perm _ _).nodup_iff]
            exact (nodup_label_firstOfLabel candidates).sublist (List.filter_sublist.map _)

/-- A catalog of artists, one of them twice. -/
def repeatedArtists : Catalog :=
  { Catalog.initial with
    artistNames := ["ab".toList, "bo".toList, "Bob".toList, "ab".toList, "x".toList] }

/-- A capital letter is typed, and the rest of the query has one of the artists. -/
theorem completionsAt?_isExact_artists :
    Text.IsBoundary "a:bo a:B".toList 8 ∧
      ∃ r, (parse "a:bo a:B".toList).completionsAt? repeatedArtists .initial 8 = some r ∧
        r.items.map (fun i => (i.label, i.priority)) = [("Bob".toList, 10), ("ab".toList, 50)] ∧
        r.IsExact "a:bo a:B".toList repeatedArtists .initial 8 := by
  have hoffset : Text.IsBoundary "a:bo a:B".toList 8 :=
    ⟨"a:bo a:B".toList, [], by decide, by decide⟩
  have hitems : ((parse "a:bo a:B".toList).completionsAt? repeatedArtists .initial 8).map
      (fun r => r.items.map fun i => (i.label, i.priority))
      = some [("Bob".toList, 10), ("ab".toList, 50)] := by decide +kernel
  obtain ⟨r, hr, hlabels⟩ := Option.map_eq_some_iff.1 hitems
  exact ⟨hoffset, r, hr, hlabels, completionsAt?_isExact hoffset hr⟩

end CardQuery
