import CardQuery.Json.Record
import Mathlib.Data.List.Forall2

/-!
# Members in any order

The members of an object can be passed on in another order than they were written in: one who keeps
them by name gives them back sorted. A record is read by the names of its members and not by their
order, so that makes no difference. The lemmas here read a record that was written from its fields,
with its members and those of all that is in it arranged anew.

Main statements: a record has the fields that it was written from (`ReadsBack.record`), and what is
read back alone is read back in a list and in a field that can be without a value (`ReadsBack.list`,
`ReadsBack.optionalMember`, `ReadsBack.ofOption`).
-/

set_option autoImplicit false

namespace CardQuery.Json

/-! ## Arranging members anew -/

mutual

/-- A value with the members of every object in it arranged anew. -/
def rearranged (arrange : List (Text × Json) → List (Text × Json)) : Json → Json
  | .array items => .array (rearrangedItems arrange items)
  | .object members => .object (arrange (rearrangedMembers arrange members))
  | v => v

/-- Values, each with its members arranged anew. -/
def rearrangedItems (arrange : List (Text × Json) → List (Text × Json)) : List Json → List Json
  | [] => []
  | v :: vs => v.rearranged arrange :: rearrangedItems arrange vs

/-- Members whose values have their members arranged anew. -/
def rearrangedMembers (arrange : List (Text × Json) → List (Text × Json)) :
    List (Text × Json) → List (Text × Json)
  | [] => []
  | (name, v) :: ms => (name, v.rearranged arrange) :: rearrangedMembers arrange ms

end

mutual

/-- Members that stay where they are make the value that was there. -/
theorem rearranged_id (v : Json) : v.rearranged id = v := by
  cases v with
  | array items => rw [rearranged, rearrangedItems_id items]
  | object members => rw [rearranged, rearrangedMembers_id members, id]
  | _ => simp [rearranged]

theorem rearrangedItems_id (vs : List Json) : rearrangedItems id vs = vs := by
  cases vs with
  | nil => simp [rearrangedItems]
  | cons v vs => rw [rearrangedItems, rearranged_id v, rearrangedItems_id vs]

theorem rearrangedMembers_id (ms : List (Text × Json)) : rearrangedMembers id ms = ms := by
  match ms with
  | [] => simp [rearrangedMembers]
  | (name, v) :: ms => rw [rearrangedMembers, rearranged_id v, rearrangedMembers_id ms]

end

/-- Whether members that are arranged anew are the same members. -/
def Rearranges (arrange : List (Text × Json) → List (Text × Json)) : Prop :=
  ∀ ms, (arrange ms).Perm ms

section

variable (arrange : List (Text × Json) → List (Text × Json))

@[simp] theorem rearranged_null : rearranged arrange .null = .null := by
  simp [rearranged]

@[simp] theorem rearranged_bool (b : Bool) : rearranged arrange (.bool b) = .bool b := by
  simp [rearranged]

@[simp] theorem rearranged_integer (n : Int) :
    rearranged arrange (.integer n) = .integer n := by
  simp [rearranged]

@[simp] theorem rearranged_string (t : Text) : rearranged arrange (.string t) = .string t := by
  simp [rearranged]

theorem rearrangedItems_eq_map (vs : List Json) :
    rearrangedItems arrange vs = vs.map (rearranged arrange) := by
  induction vs with
  | nil => simp [rearrangedItems]
  | cons v vs ih => rw [rearrangedItems, ih, List.map_cons]

theorem rearrangedMembers_eq_map (ms : List (Text × Json)) :
    rearrangedMembers arrange ms = ms.map fun m => (m.1, m.2.rearranged arrange) := by
  induction ms with
  | nil => simp [rearrangedMembers]
  | cons m ms ih => rw [rearrangedMembers, ih, List.map_cons]

@[simp] theorem rearranged_array (vs : List Json) :
    rearranged arrange (.array vs) = .array (vs.map (rearranged arrange)) := by
  rw [rearranged, rearrangedItems_eq_map]

@[simp] theorem rearranged_object (ms : List (Text × Json)) :
    rearranged arrange (.object ms)
      = .object (arrange (ms.map fun m => (m.1, m.2.rearranged arrange))) := by
  rw [rearranged, rearrangedMembers_eq_map]

end

/-! ## Reading by name -/

/-- Two rows of the same things are the same row, or both have several. -/
theorem eq_or_several_of_perm {α : Type} {l l' : List α} (h : l.Perm l') :
    l = l' ∨ (∃ a b rest, l = a :: b :: rest) ∧ ∃ a b rest, l' = a :: b :: rest := by
  match l, l', h with
  | [], _, h => exact Or.inl h.nil_eq
  | [_], _, h => exact Or.inl (List.perm_singleton.1 h.symm).symm
  | _ :: _ :: _, [], h => cases h.eq_nil
  | _ :: _ :: _, [_], h => cases List.perm_singleton.1 h
  | _ :: _ :: _, _ :: _ :: _, _ => exact Or.inr ⟨⟨_, _, _, rfl⟩, _, _, _, rfl⟩

/-- What is given by one name does not depend on the order of the members. -/
theorem memberOf?_perm {ms ms' : List (Text × Json)} (h : ms.Perm ms') (f : Field) :
    memberOf? ms f = memberOf? ms' f := by
  rw [memberOf?, memberOf?]
  rcases eq_or_several_of_perm (h.filter fun m => f.names.contains m.1) with
    heq | ⟨⟨a, b, rest, hms⟩, a', b', rest', hms'⟩
  · rw [heq]
  · rw [hms, hms']

theorem record?_perm (fields : List Field) {ms ms' : List (Text × Json)} (h : ms.Perm ms') :
    record? fields (.object ms) = record? fields (.object ms') := by
  have hmembers : memberOf? ms = memberOf? ms' := funext (memberOf?_perm h)
  rw [record?, record?, hmembers]

/-! ## Records from their fields -/

/-- The members of a record with these values for its fields: a field without a value is left
out. -/
def membersOf (values : List (String × Option Json)) : List (Text × Json) :=
  values.flatMap fun c => c.2.toList.map fun v => (c.1.toList, v)

/-- Whether each value has the name of its field, and is left out only where that is allowed. -/
def Fits : List Field → List (String × Option Json) → Prop :=
  List.Forall₂ fun f c => c.1.toList ∈ f.names ∧ (c.2 = none → f.absence ≠ .refused)

/-- Whether no two fields can be given by the same name. -/
def NamedApart (fields : List Field) : Prop :=
  fields.Pairwise fun f g => ∀ name ∈ f.names, name ∉ g.names

instance (fields : List Field) : Decidable (NamedApart fields) :=
  inferInstanceAs (Decidable (fields.Pairwise fun f g => ∀ name ∈ f.names, name ∉ g.names))

theorem membersOf_cons (c : String × Option Json) (cs : List (String × Option Json)) :
    membersOf (c :: cs) = (c.2.toList.map fun v => (c.1.toList, v)) ++ membersOf cs := rfl

/-- A member has the name of one of the fields. -/
theorem Fits.exists_field {fields : List Field} {values : List (String × Option Json)}
    (h : Fits fields values) {m : Text × Json} (hm : m ∈ membersOf values) :
    ∃ f ∈ fields, m.1 ∈ f.names := by
  induction h with
  | nil => cases hm
  | @cons f c fields values hc _ ih =>
      rw [membersOf_cons, List.mem_append] at hm
      rcases hm with hm | hm
      · obtain ⟨v, -, rfl⟩ := List.mem_map.1 hm
        exact ⟨f, List.mem_cons_self, hc.1⟩
      · obtain ⟨g, hg, hname⟩ := ih hm
        exact ⟨g, List.mem_cons_of_mem f hg, hname⟩

theorem filter_names_eq_nil {f : Field} {ms : List (Text × Json)}
    (h : ∀ m ∈ ms, m.1 ∉ f.names) : (ms.filter fun m => f.names.contains m.1) = [] := by
  rw [List.filter_eq_nil_iff]
  intro m hm
  simpa using h m hm

/-- A field has the value that was written for it, whatever else stands around it under other
names. -/
theorem memberOf?_append {f : Field} {c : String × Option Json} {before after : List (Text × Json)}
    (hname : c.1.toList ∈ f.names) (habsence : c.2 = none → f.absence ≠ .refused)
    (hbefore : ∀ m ∈ before, m.1 ∉ f.names) (hafter : ∀ m ∈ after, m.1 ∉ f.names) :
    memberOf? (before ++ ((c.2.toList.map fun v => (c.1.toList, v)) ++ after)) f
      = some c.2 := by
  rw [memberOf?, List.filter_append, List.filter_append, filter_names_eq_nil hbefore,
    filter_names_eq_nil hafter, List.nil_append, List.append_nil]
  rcases c with ⟨name, _ | v⟩
  · show (if f.absence = .refused then none else some none) = some none
    rw [if_neg (habsence rfl)]
  · rw [Option.toList_some, List.map_singleton,
      List.filter_cons_of_pos (by simpa using hname)]
    rfl

/-- The fields of a record behind others: a member with another name changes nothing. -/
theorem mapM_memberOf? {fields : List Field} {values : List (String × Option Json)}
    (hfits : Fits fields values) (hapart : NamedApart fields) (before : List (Text × Json))
    (hbefore : ∀ m ∈ before, ∀ f ∈ fields, m.1 ∉ f.names) :
    fields.mapM (memberOf? (before ++ membersOf values)) = some (values.map Prod.snd) := by
  induction hfits generalizing before with
  | nil => rfl
  | @cons f c fields values hc hfits ih =>
      obtain ⟨hf, hrest⟩ := List.pairwise_cons.1 hapart
      have hhere : memberOf? (before ++ membersOf (c :: values)) f = some c.2 := by
        rw [membersOf_cons]
        refine memberOf?_append hc.1 hc.2 (fun m hm => hbefore m hm f List.mem_cons_self) ?_
        intro m hm
        obtain ⟨g, hg, hname⟩ := Fits.exists_field hfits hm
        exact fun hmem => hf g hg _ hmem hname
      have hbehind := ih hrest (before ++ c.2.toList.map fun v => (c.1.toList, v)) ?_
      · rw [List.append_assoc, ← membersOf_cons] at hbehind
        rw [List.mapM_cons, hhere, hbehind]
        rfl
      · intro m hm g hg
        rcases List.mem_append.1 hm with hm | hm
        · exact hbefore m hm g (List.mem_cons_of_mem f hg)
        · obtain ⟨v, -, rfl⟩ := List.mem_map.1 hm
          exact hf g hg _ hc.1

section

variable {arrange : List (Text × Json) → List (Text × Json)}

theorem rearranged_membersOf (values : List (String × Option Json)) :
    ((membersOf values).map fun m => (m.1, m.2.rearranged arrange))
      = membersOf (values.map fun c => (c.1, c.2.map (rearranged arrange))) := by
  induction values with
  | nil => rfl
  | cons c values ih =>
      rw [List.map_cons, membersOf_cons, membersOf_cons, List.map_append, ih]
      rcases c with ⟨name, _ | v⟩ <;> rfl

theorem Fits.rearranged (arrange : List (Text × Json) → List (Text × Json)) {fields : List Field}
    {values : List (String × Option Json)} (h : Fits fields values) :
    Fits fields (values.map fun c => (c.1, c.2.map (Json.rearranged arrange))) := by
  refine List.forall₂_map_right_iff.2 (h.imp fun f c hc => ⟨hc.1, fun hnone => hc.2 ?_⟩)
  exact Option.map_eq_none_iff.1 hnone

/-- **A record has the fields that it was written from,** however its members are arranged. -/
theorem record?_rearranged (harrange : Rearranges arrange) {fields : List Field}
    {values : List (String × Option Json)} (hfits : Fits fields values)
    (hapart : NamedApart fields) :
    record? fields (Json.rearranged arrange (.object (membersOf values)))
      = some (values.map fun c => c.2.map (Json.rearranged arrange)) := by
  rw [rearranged_object, record?_perm fields (harrange _), rearranged_membersOf, record?]
  have hread := mapM_memberOf? (hfits.rearranged arrange) hapart [] (by simp)
  rw [List.nil_append, List.map_map] at hread
  exact hread

/-! ## Reading back -/

/-- Whether a reader gives back what was written, however its members are arranged. -/
def ReadsBack (arrange : List (Text × Json) → List (Text × Json)) {α : Type} (write : α → Json)
    (read? : Json → Option α) (a : α) : Prop :=
  read? ((write a).rearranged arrange) = some a

/-- Whether a value is read back from what is written of it, as it is and with the members of every
object arranged in any other order. -/
def RoundTrips {α : Type} (write : α → Json) (read? : Json → Option α) (a : α) : Prop :=
  read? (write a) = some a ∧
    ∀ arrange, Rearranges arrange → read? ((write a).rearranged arrange) = some a

theorem RoundTrips.of_readsBack {α : Type} {write : α → Json} {read? : Json → Option α} {a : α}
    (h : ∀ {arrange}, Rearranges arrange → ReadsBack arrange write read? a) :
    RoundTrips write read? a := by
  have hid : ReadsBack id write read? a := h fun ms => .refl ms
  rw [ReadsBack, rearranged_id] at hid
  exact ⟨hid, fun _ harrange => h harrange⟩

theorem readsBack_text (arrange : List (Text × Json) → List (Text × Json)) (t : Text) :
    ReadsBack arrange .string text? t := by
  rw [ReadsBack, rearranged_string, text?]

theorem readsBack_offset (arrange : List (Text × Json) → List (Text × Json)) {n : Nat}
    (h : n ≤ maxOffset) : ReadsBack arrange ofNat offset? n := by
  rw [ReadsBack, ofNat, rearranged_integer, offset?, if_pos (by simpa using h), Int.toNat_natCast]

variable {α : Type} {write : α → Json} {read? : Json → Option α}

/-- A record is read back when it is read from the values of its fields. -/
theorem ReadsBack.record (harrange : Rearranges arrange) {a : α} {fields : List Field}
    {values : List (String × Option Json)} (hwrite : write a = .object (membersOf values))
    (hfits : Fits fields values) (hapart : NamedApart fields)
    (hread : ∀ j, record? fields j = some (values.map fun c => c.2.map (rearranged arrange)) →
      read? j = some a) : ReadsBack arrange write read? a := by
  rw [ReadsBack, hwrite]
  exact hread _ (record?_rearranged harrange hfits hapart)

/-- A list is read when each of its items is. -/
theorem list?_array_eq_some_iff {items : List Json} {values : List α} :
    list? read? (.array items) = some values ↔
      List.Forall₂ (fun v a => read? v = some a) items values := by
  rw [list?]
  induction items generalizing values with
  | nil =>
      rw [List.forall₂_nil_left_iff]
      exact ⟨fun h => (Option.some.inj h).symm, fun h => congrArg some h.symm⟩
  | cons v items ih =>
      simp only [List.mapM_cons, Option.bind_eq_bind, Option.bind_eq_some_iff, Option.pure_def,
        Option.some.injEq]
      constructor
      · rintro ⟨a, ha, rest, hrest, rfl⟩
        exact .cons ha (ih.1 hrest)
      · rintro (_ | ⟨ha, hrest⟩)
        exact ⟨_, ha, _, ih.2 hrest, rfl⟩

theorem ReadsBack.list {l : List α} (h : ∀ a ∈ l, ReadsBack arrange write read? a) :
    ReadsBack arrange (fun l => .array (l.map write)) (list? read?) l := by
  rw [ReadsBack, rearranged_array, List.map_map, list?_array_eq_some_iff,
    List.forall₂_map_left_iff, List.forall₂_same]
  exact h

/-- What is not null is read as a value that is there. -/
theorem nullable?_eq_some {v : Json} {a : α} (hnull : read? .null = none)
    (h : read? v = some a) : nullable? read? v = some (some a) := by
  unfold nullable?
  split
  · rw [hnull] at h
    cases h
  · rw [h, Option.map_some]

/-- A field that is left out when there is no value for it. -/
theorem ReadsBack.optionalMember {o : Option α} (hnull : read? .null = none)
    (h : ∀ a ∈ o, ReadsBack arrange write read? a) :
    optional? read? ((o.map write).map (rearranged arrange)) = some o := by
  cases o with
  | none => rfl
  | some a => exact nullable?_eq_some hnull (h a rfl)

/-- A field that is null when there is no value for it. -/
theorem ReadsBack.ofOption {o : Option α} (hnull : read? .null = none)
    (h : ∀ a ∈ o, ReadsBack arrange write read? a) :
    optional? read? (some ((ofOption write o).rearranged arrange)) = some o := by
  cases o with
  | none =>
      show nullable? read? (rearranged arrange .null) = some none
      rw [rearranged_null, nullable?]
  | some a => exact nullable?_eq_some hnull (h a rfl)

end

end CardQuery.Json
