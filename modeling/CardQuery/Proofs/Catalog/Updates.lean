import CardQuery.Proofs.Catalog.Response
import Mathlib.Data.List.Induction
import Mathlib.Logic.Function.Basic

/-!
# Updates of a catalog

A catalog is filled list by list, from values or from responses of the card service. An update is
for one list: it replaces all that is in it, or it is refused and changes nothing. The lists that
an update can be for are a function from `CatalogList`, and an update that succeeds changes this
function at one point, so updates for different lists commute. All this is so for any reader of JSON
(`parse?`), because it only decides which bodies are responses.

Main statement: after any updates every list holds what was last written to it, and only the
updates for that list matter to it (`Catalog.updates_apart`).
-/

set_option autoImplicit false

namespace CardQuery

/-! ## The lists of a catalog -/

/-- The lists that an update can be for. -/
inductive CatalogList
  | field (f : CatalogField)
  | sets
  | otags
  | atags
  deriving DecidableEq, Repr

/-- What is in a list. -/
def CatalogList.Entry : CatalogList → Type
  | .sets => SetInfo
  | _ => Text

namespace Catalog

/-- What a list holds. -/
def list (c : Catalog) : (l : CatalogList) → List l.Entry
  | .field f => c.field f
  | .sets => c.sets
  | .otags => c.otags
  | .atags => c.atags

/-- The catalog with these lists. All other ones stay as they are. -/
def withLists (c : Catalog) (lists : (l : CatalogList) → List l.Entry) : Catalog :=
  { c with
    cardNames := lists (.field .cardNames)
    artistNames := lists (.field .artistNames)
    cardTypes := lists (.field .cardTypes)
    creatureTypes := lists (.field .creatureTypes)
    artifactTypes := lists (.field .artifactTypes)
    enchantmentTypes := lists (.field .enchantmentTypes)
    landTypes := lists (.field .landTypes)
    planeswalkerTypes := lists (.field .planeswalkerTypes)
    battleTypes := lists (.field .battleTypes)
    spellTypes := lists (.field .spellTypes)
    supertypes := lists (.field .supertypes)
    powers := lists (.field .powers)
    toughnesses := lists (.field .toughnesses)
    loyalties := lists (.field .loyalties)
    watermarks := lists (.field .watermarks)
    keywordAbilities := lists (.field .keywordAbilities)
    keywordActions := lists (.field .keywordActions)
    abilityWords := lists (.field .abilityWords)
    sets := lists .sets
    otags := lists .otags
    atags := lists .atags }

/-- The catalog with other values in one list. -/
def withList (c : Catalog) (l : CatalogList) (values : List l.Entry) : Catalog :=
  c.withLists (Function.update c.list l values)

variable {c : Catalog} {l : CatalogList}

@[simp] theorem list_withLists (c : Catalog) (lists : (l : CatalogList) → List l.Entry) :
    (c.withLists lists).list = lists := by
  funext l
  cases l with
  | field f => cases f <;> rfl
  | _ => rfl

@[simp] theorem withLists_list (c : Catalog) : c.withLists c.list = c := rfl

@[simp] theorem withLists_withLists (c : Catalog)
    (lists lists' : (l : CatalogList) → List l.Entry) :
    (c.withLists lists).withLists lists' = c.withLists lists' := rfl

theorem list_withList (c : Catalog) (l : CatalogList) (values : List l.Entry) :
    (c.withList l values).list = Function.update c.list l values :=
  list_withLists c _

theorem withList_field (c : Catalog) (f : CatalogField) (values : List Text) :
    c.withList (.field f) values = c.withField f values := by
  cases f <;> rfl

end Catalog

/-! ## Updates -/

/-- A change of a catalog. -/
inductive CatalogUpdate
  | field (f : CatalogField) (values : List Text)
  | response (f : CatalogField) (body : Text)
  | setsResponse (body : Text)
  | otags (values : List Text)
  | atags (values : List Text)

namespace CatalogUpdate

/-- The list that an update is for. -/
def target : CatalogUpdate → CatalogList
  | .field f _ => .field f
  | .response f _ => .field f
  | .setsResponse _ => .sets
  | .otags _ => .otags
  | .atags _ => .atags

variable {parse? : Text → Option Json}

/-- Whether an update brings these values for a list: they are given, or they are in a response of
the right kind. -/
inductive Writes (parse? : Text → Option Json) :
    CatalogUpdate → (l : CatalogList) → List l.Entry → Prop
  | field (f : CatalogField) (values : List Text) :
      Writes parse? (.field f values) (.field f) values
  | response {f : CatalogField} {body : Text} {values : List Text}
      (h : Catalog.Decodes parse? Json.text? body "catalog".toList values) :
      Writes parse? (.response f body) (.field f) values
  | setsResponse {body : Text} {sets : List SetInfo}
      (h : Catalog.Decodes parse? SetInfo.ofJson? body "list".toList sets) :
      Writes parse? (.setsResponse body) .sets sets
  | otags (values : List Text) : Writes parse? (.otags values) .otags values
  | atags (values : List Text) : Writes parse? (.atags values) .atags values

/-- Whether an update is refused, and why. Only a response can be. -/
inductive Refused (parse? : Text → Option Json) : CatalogUpdate → LoadError → Prop
  | response {f : CatalogField} {body : Text} {e : LoadError}
      (h : Catalog.Refused parse? "catalog" Json.text? body e) :
      Refused parse? (.response f body) e
  | setsResponse {body : Text} {e : LoadError}
      (h : Catalog.Refused parse? "list" SetInfo.ofJson? body e) :
      Refused parse? (.setsResponse body) e

theorem Writes.target_eq {u : CatalogUpdate} {l : CatalogList} {values : List l.Entry}
    (h : u.Writes parse? l values) : u.target = l := by
  cases h <;> rfl

theorem writes_or_refused (parse? : Text → Option Json) (u : CatalogUpdate) :
    (∃ values, u.Writes parse? u.target values) ∨ ∃ e, u.Refused parse? e := by
  cases u with
  | field f values => exact Or.inl ⟨values, .field f values⟩
  | response f body =>
      rcases Catalog.decodes_or_refused parse? "catalog" Json.text? body with ⟨values, h⟩ | ⟨e, h⟩
      · exact Or.inl ⟨values, .response h⟩
      · exact Or.inr ⟨e, .response h⟩
  | setsResponse body =>
      rcases Catalog.decodes_or_refused parse? "list" SetInfo.ofJson? body with
        ⟨sets, h⟩ | ⟨e, h⟩
      · exact Or.inl ⟨sets, .setsResponse h⟩
      · exact Or.inr ⟨e, .setsResponse h⟩
  | otags values => exact Or.inl ⟨values, .otags values⟩
  | atags values => exact Or.inl ⟨values, .atags values⟩

end CatalogUpdate

namespace Catalog

variable {parse? : Text → Option Json} {c c' : Catalog} {u v : CatalogUpdate} {l : CatalogList}

/-- The catalog that an update makes. -/
def update (parse? : Text → Option Json) (c : Catalog) : CatalogUpdate → Except LoadError Catalog
  | .field f values => .ok (c.withField f values)
  | .response f body => c.fillField parse? f body
  | .setsResponse body => c.fillSets parse? body
  | .otags values => .ok (c.withOtags values)
  | .atags values => .ok (c.withAtags values)

/-- The catalog after an update. One that is refused leaves it as it was. -/
def after (parse? : Text → Option Json) (c : Catalog) (u : CatalogUpdate) : Catalog :=
  match c.update parse? u with
  | .ok c' => c'
  | .error _ => c

/-- The catalog after several updates. -/
def run (parse? : Text → Option Json) (c : Catalog) (updates : List CatalogUpdate) : Catalog :=
  updates.foldl (after parse?) c

/-! ## One update -/

/-- An update that brings values replaces what is in its list and nothing else. -/
theorem update_of_writes {values : List l.Entry} (h : u.Writes parse? l values) (c : Catalog) :
    c.update parse? u = .ok (c.withList l values) := by
  cases h with
  | field f values => rw [withList_field, update]
  | response h =>
      rw [update, fillField, readResponse_of_decodes h, if_pos rfl, withList_field]
      rfl
  | setsResponse h =>
      rw [update, fillSets, readResponse_of_decodes h, if_pos rfl]
      rfl
  | otags values => rfl
  | atags values => rfl

theorem update_of_refused {e : LoadError} (h : u.Refused parse? e) (c : Catalog) :
    c.update parse? u = .error e := by
  cases h with
  | response h =>
      rw [update, fillField, readResponse_of_refused h]
      rfl
  | setsResponse h =>
      rw [update, fillSets, readResponse_of_refused h]
      rfl

theorem after_of_writes {values : List l.Entry} (h : u.Writes parse? l values) (c : Catalog) :
    c.after parse? u = c.withList l values := by
  rw [after, update_of_writes h]

theorem after_of_refused {e : LoadError} (h : u.Refused parse? e) (c : Catalog) :
    c.after parse? u = c := by
  rw [after, update_of_refused h]

/-- What an update writes is what its list holds. -/
theorem list_after_of_writes {values : List l.Entry} (h : u.Writes parse? l values) (c : Catalog) :
    (c.after parse? u).list l = values := by
  rw [after_of_writes h, list_withList, Function.update_self]

/-- An update changes no list but the one that it is for. -/
theorem list_after_of_ne (h : l ≠ u.target) (c : Catalog) :
    (c.after parse? u).list l = c.list l := by
  rcases u.writes_or_refused parse? with ⟨values, hwrites⟩ | ⟨e, hrefused⟩
  · rw [after_of_writes hwrites, list_withList, Function.update_of_ne h]
  · rw [after_of_refused hrefused]

theorem list_after_of_forall_not_writes (h : ∀ values, ¬ u.Writes parse? l values) (c : Catalog) :
    (c.after parse? u).list l = c.list l := by
  rcases u.writes_or_refused parse? with ⟨values, hwrites⟩ | ⟨e, hrefused⟩
  · refine list_after_of_ne ?_ c
    rintro rfl
    exact h values hwrites
  · rw [after_of_refused hrefused]

/-- What a list holds after an update depends on what it held and on nothing else. -/
theorem list_after_congr (u : CatalogUpdate) (h : c.list l = c'.list l) :
    (c.after parse? u).list l = (c'.after parse? u).list l := by
  by_cases hwrites : ∃ values, u.Writes parse? l values
  · obtain ⟨values, hwrites⟩ := hwrites
    rw [list_after_of_writes hwrites, list_after_of_writes hwrites]
  · have hnone := not_exists.1 hwrites
    rw [list_after_of_forall_not_writes hnone, list_after_of_forall_not_writes hnone, h]

/-- Only lists that an update can be for are changed. -/
theorem after_eq_withLists (c : Catalog) (u : CatalogUpdate) :
    c.after parse? u = c.withLists (c.after parse? u).list := by
  rcases u.writes_or_refused parse? with ⟨values, hwrites⟩ | ⟨e, hrefused⟩
  · rw [after_of_writes hwrites, list_withList, withList]
  · rw [after_of_refused hrefused, withLists_list]

/-! ## Runs -/

@[simp] theorem run_nil (c : Catalog) : c.run parse? [] = c := rfl

theorem run_append (c : Catalog) (updates updates' : List CatalogUpdate) :
    c.run parse? (updates ++ updates') = (c.run parse? updates).run parse? updates' :=
  List.foldl_append

theorem run_concat (c : Catalog) (updates : List CatalogUpdate) (u : CatalogUpdate) :
    c.run parse? (updates ++ [u]) = (c.run parse? updates).after parse? u :=
  run_append c updates [u]

theorem run_cons (c : Catalog) (u : CatalogUpdate) (updates : List CatalogUpdate) :
    c.run parse? (u :: updates) = (c.after parse? u).run parse? updates := rfl

/-- Whether these values are the last that updates bring for a list, or what the catalog has in it
when they bring none. -/
def LastWritten (parse? : Text → Option Json) (c : Catalog) (updates : List CatalogUpdate)
    (l : CatalogList) (values : List l.Entry) : Prop :=
  (∃ before u after, updates = before ++ u :: after ∧ u.Writes parse? l values ∧
    ∀ v ∈ after, ∀ other, ¬ v.Writes parse? l other) ∨
  (∀ u ∈ updates, ∀ other, ¬ u.Writes parse? l other) ∧ values = c.list l

/-- **Every list holds what was last written to it.** -/
theorem lastWritten_run (c : Catalog) (updates : List CatalogUpdate) (l : CatalogList) :
    c.LastWritten parse? updates l ((c.run parse? updates).list l) := by
  -- by the last update: it writes the list, or the list is what those before it left
  induction updates using List.reverseRecOn with
  | nil => exact Or.inr ⟨by simp, rfl⟩
  | append_singleton updates u ih =>
      rw [run_concat]
      by_cases hwrites : ∃ values, u.Writes parse? l values
      · obtain ⟨values, hwrites⟩ := hwrites
        rw [list_after_of_writes hwrites]
        exact Or.inl ⟨updates, u, [], rfl, hwrites, by simp⟩
      · have hnone := not_exists.1 hwrites
        rw [list_after_of_forall_not_writes hnone]
        rcases ih with ⟨before, v, after, rfl, hv, hafter⟩ | ⟨hupdates, hstart⟩
        · refine Or.inl ⟨before, v, after ++ [u], by simp, hv, fun w hw => ?_⟩
          rcases List.mem_append.1 hw with hw | hw
          · exact hafter w hw
          · rw [List.mem_singleton.1 hw]
            exact hnone
        · refine Or.inr ⟨fun w hw => ?_, hstart⟩
          rcases List.mem_append.1 hw with hw | hw
          · exact hupdates w hw
          · rw [List.mem_singleton.1 hw]
            exact hnone

theorem run_eq_withLists (c : Catalog) (updates : List CatalogUpdate) :
    c.run parse? updates = c.withLists (c.run parse? updates).list := by
  induction updates using List.reverseRecOn with
  | nil => rw [run_nil, withLists_list]
  | append_singleton updates u ih =>
      rw [run_concat, after_eq_withLists, ih]
      simp

/-- Only the updates for a list matter to it. -/
theorem list_run_filter (c : Catalog) (updates : List CatalogUpdate) (l : CatalogList) :
    (c.run parse? (updates.filter fun u => u.target = l)).list l
      = (c.run parse? updates).list l := by
  induction updates using List.reverseRecOn with
  | nil => rfl
  | append_singleton updates u ih =>
      rw [List.filter_append, run_append, run_concat]
      by_cases hu : u.target = l
      · rw [List.filter_cons_of_pos (by simpa using hu), List.filter_nil]
        exact list_after_congr u ih
      · rw [List.filter_cons_of_neg (by simpa using hu), List.filter_nil, run_nil, ih]
        exact (list_after_of_ne (Ne.symm hu) _).symm

/-- **Updates for different lists can be done in any order:** runs with the same updates for each
list make the same catalog. -/
theorem run_eq_of_filter_eq {updates updates' : List CatalogUpdate} (c : Catalog)
    (h : ∀ l, (updates.filter fun u => u.target = l) = updates'.filter fun u => u.target = l) :
    c.run parse? updates = c.run parse? updates' := by
  -- the lists that no update reaches are those of `c` in both
  have hlists : (c.run parse? updates).list = (c.run parse? updates').list := by
    funext l
    calc (c.run parse? updates).list l
      _ = (c.run parse? (updates.filter fun u => u.target = l)).list l := by rw [list_run_filter]
      _ = (c.run parse? (updates'.filter fun u => u.target = l)).list l := by rw [h l]
      _ = (c.run parse? updates').list l := by rw [list_run_filter]
  rw [run_eq_withLists, hlists, ← run_eq_withLists]

theorem run_swap (c : Catalog) (before after : List CatalogUpdate) (h : u.target ≠ v.target) :
    c.run parse? (before ++ u :: v :: after) = c.run parse? (before ++ v :: u :: after) := by
  -- of the two, one at most is for any one list
  refine run_eq_of_filter_eq c fun l => ?_
  by_cases hu : u.target = l
  · have hv : v.target ≠ l := fun hv => h (hu.trans hv.symm)
    simp [hu, hv]
  · simp [List.filter_cons, hu]

theorem run_refused {e : LoadError} (c : Catalog) (before after : List CatalogUpdate)
    (h : u.Refused parse? e) :
    c.run parse? (before ++ u :: after) = c.run parse? (before ++ after) := by
  rw [run_append, run_cons, after_of_refused h, ← run_append]

/-! ## The main statement -/

/-- Whether updates of a catalog neither disturb each other nor do anything by halves. -/
structure UpdatesApart (parse? : Text → Option Json) (c : Catalog) : Prop where
  /-- An update that brings values for a list is for that list and succeeds. -/
  succeeds : ∀ u l values, u.Writes parse? l values →
    u.target = l ∧ c.update parse? u = .ok (c.withList l values)
  /-- A response that is none, or of another kind, is an error. -/
  fails : ∀ u e, u.Refused parse? e → c.update parse? u = .error e
  /-- Every update is one or the other. -/
  decided : ∀ u : CatalogUpdate,
    (∃ values, u.Writes parse? u.target values) ∨ ∃ e, u.Refused parse? e
  /-- Every list holds what was last written to it. A field is read by `field`. -/
  last : ∀ updates l, c.LastWritten parse? updates l ((c.run parse? updates).list l)
  /-- All other lists stay as they are. -/
  others : ∀ updates, c.run parse? updates = c.withLists (c.run parse? updates).list
  /-- What is refused changes nothing, wherever it stands. -/
  refused : ∀ before u after e, u.Refused parse? e →
    c.run parse? (before ++ u :: after) = c.run parse? (before ++ after)
  /-- Runs with the same updates for each list make the same catalog. -/
  reordered : ∀ updates updates' : List CatalogUpdate,
    (∀ l, (updates.filter fun u => u.target = l) = updates'.filter fun u => u.target = l) →
    c.run parse? updates = c.run parse? updates'
  /-- Updates for different lists commute. -/
  swapped : ∀ before u v after, u.target ≠ v.target →
    c.run parse? (before ++ u :: v :: after) = c.run parse? (before ++ v :: u :: after)

/-- **Updates of a catalog are apart,** in whatever row they come, from whatever catalog, and with
whatever reader of JSON. -/
theorem updates_apart (parse? : Text → Option Json) (c : Catalog) : c.UpdatesApart parse? where
  succeeds _ _ _ h := ⟨h.target_eq, update_of_writes h c⟩
  fails _ _ h := update_of_refused h c
  decided u := u.writes_or_refused parse?
  last := c.lastWritten_run
  others := c.run_eq_withLists
  refused before _ after _ h := c.run_refused before after h
  reordered _ _ h := run_eq_of_filter_eq c h
  swapped before _ _ after h := c.run_swap before after h

/-- A response with a member that is skipped, then a list of sets where a catalog is asked for, then
values for another list. -/
theorem updates_apart_powers :
    let powers := CatalogUpdate.response .powers
      "\x7b\"object\":\"catalog\",\"data\":[\"1\"],\"note\":\"\\ud800\"\x7d".toList
    let sets := CatalogUpdate.response .powers "\x7b\"object\":\"list\"\x7d".toList
    let ramp := CatalogUpdate.otags ["ramp".toList]
    (powers.Writes Json.read? (.field .powers) ["1".toList] ∧
        initial.update Json.read? powers = .ok (initial.withList (.field .powers) ["1".toList])) ∧
      (sets.Refused Json.read? (.unexpectedObject "catalog" "list".toList) ∧
        initial.update Json.read? sets = .error (.unexpectedObject "catalog" "list".toList) ∧
        initial.run Json.read? [powers, sets, ramp] = initial.run Json.read? [powers, ramp]) ∧
      powers.target ≠ ramp.target ∧
        initial.run Json.read? [powers, ramp] = initial.run Json.read? [ramp, powers] := by
  intro powers sets ramp
  have hpowers : powers.Writes Json.read? (.field .powers) ["1".toList] :=
    .response ⟨.object [("object".toList, .string "catalog".toList),
        ("data".toList, .array [.string "1".toList]),
        ("note".toList, .unpaired "\"\\ud800\"".toList)],
      some (.array [.string "1".toList]), by cbv, .members rfl rfl,
      Or.inr ⟨_, rfl, .cons rfl .nil⟩⟩
  have hdecodes :
      Decodes Json.read? Json.text? "\x7b\"object\":\"list\"\x7d".toList "list".toList [] :=
    ⟨.object [("object".toList, .string "list".toList)], none, by cbv, .members rfl rfl,
      Or.inl ⟨rfl, rfl⟩⟩
  have hsets : sets.Refused Json.read? (.unexpectedObject "catalog" "list".toList) :=
    .response (.unexpected hdecodes (by decide))
  have htarget : powers.target ≠ ramp.target := by decide
  have hapart : initial.UpdatesApart Json.read? := updates_apart Json.read? initial
  exact ⟨⟨hpowers, (hapart.succeeds powers _ _ hpowers).2⟩,
    ⟨hsets, hapart.fails sets _ hsets, hapart.refused [powers] sets [ramp] _ hsets⟩,
    htarget, hapart.swapped [] powers ramp [] htarget⟩

end Catalog

end CardQuery
