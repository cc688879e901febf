import CardQuery.Json.Catalog
import CardQuery.Proofs.Json.Arrangement

/-!
# Responses of the card service

A response says what kind of object it is and brings a list of values. `Decodes` says which bodies
are responses, by the members or items of their JSON and not by how a record is looked up. A body
that is none, or a response of another kind than the one asked for, is refused for a reason
(`Refused`). Nothing is assumed of the reader of JSON: it can find any value in a text, or none.

Main statements: `Catalog.readResponse_of_decodes` and `Catalog.readResponse_of_refused`.
-/

set_option autoImplicit false

namespace CardQuery

namespace Json

/-! ## Fields with one name -/

/-- A field with one name has the value of the only member with that name. -/
theorem memberOf?_eq_some_iff {members : List (Text × Json)} {f : Field} {name : Text}
    (hname : f.names = [name]) {v : Option Json} :
    memberOf? members f = some v ↔
      (members.filter fun m => m.1 = name) = v.toList.map (fun v => (name, v)) ∧
        (v = none → f.absence ≠ .refused) := by
  have hfilter : (members.filter fun m => f.names.contains m.1)
      = members.filter fun m => m.1 = name := by
    rw [hname]
    simp
  have hnamed : ∀ m ∈ members.filter fun m => m.1 = name, m.1 = name := by
    intro m hm
    simpa using (List.mem_filter.1 hm).2
  rw [memberOf?, hfilter]
  generalize (members.filter fun m => m.1 = name) = found at hnamed ⊢
  rcases found with _ | ⟨⟨n, w⟩, _ | ⟨m, ms⟩⟩
  · by_cases habsence : f.absence = .refused <;> cases v <;> simp [habsence]
  · obtain rfl : n = name := hnamed (n, w) List.mem_cons_self
    cases v <;> simp
  · cases v <;> simp

theorem required?_text?_eq_some_iff {v : Option Json} {t : Text} :
    required? text? v = some t ↔ v = some (.string t) := by
  cases v with
  | none => simp [required?]
  | some j => cases j <;> simp [required?, text?]

/-- Whether JSON gives the kind of an object and its data, if there are any: as members of these
names, each given once, or as the items of an array. -/
inductive Gives : Json → Text → Option Json → Prop
  | members {members : List (Text × Json)} {object : Text} {data : Option Json}
      (hobject : (members.filter fun m => m.1 = "object".toList)
        = [("object".toList, .string object)])
      (hdata : (members.filter fun m => m.1 = "data".toList)
        = data.toList.map fun v => ("data".toList, v)) :
      Gives (.object members) object data
  | items (object : Text) (data : Option Json) :
      Gives (.array (.string object :: data.toList)) object data

theorem record?_eq_some_iff_gives {j : Json} {object : Text} {data : Option Json} :
    record? [.required "object", .optional "data"] j = some [some (.string object), data] ↔
      j.Gives object data := by
  constructor
  · intro h
    cases j with
    | object members =>
        simp only [record?, List.mapM_cons, List.mapM_nil, Option.bind_eq_bind,
          Option.bind_eq_some_iff, Option.pure_def, Option.some.injEq, List.cons.injEq] at h
        obtain ⟨_, hobject, _, ⟨_, hdata, _, rfl, rfl⟩, rfl, rfl, -⟩ := h
        exact .members ((memberOf?_eq_some_iff rfl).1 hobject).1
          ((memberOf?_eq_some_iff rfl).1 hdata).1
    | array items =>
        rcases items with _ | ⟨v, _ | ⟨w, _ | ⟨x, rest⟩⟩⟩
        · cases h
        · cases h
          exact .items object none
        · cases h
          exact .items object (some w)
        · cases h
    | _ => cases h
  · rintro (⟨hobject, hdata⟩ | _)
    · have hobject : memberOf? _ (.required "object") = some (some (.string object)) :=
        (memberOf?_eq_some_iff rfl).2 ⟨hobject, by simp⟩
      have hdata : memberOf? _ (.optional "data") = some data :=
        (memberOf?_eq_some_iff rfl).2 ⟨hdata, fun _ => by simp [Field.optional]⟩
      simp only [record?, List.mapM_cons, List.mapM_nil, hobject, hdata]
      rfl
    · cases data <;> rfl

end Json

namespace Catalog

variable {α : Type} {parse? : Text → Option Json} {read? : Json → Option α}

/-- Whether a body is a response of a kind with these values, as a reader of JSON reads it. A
response without data has none. -/
def Decodes (parse? : Text → Option Json) (read? : Json → Option α) (body object : Text)
    (values : List α) : Prop :=
  ∃ j data, parse? body = some j ∧ j.Gives object data ∧
    (data = none ∧ values = [] ∨ ∃ items, data = some (.array items) ∧
      List.Forall₂ (fun v a => read? v = some a) items values)

/-- Why a body is refused where a response of the kind `expected` is asked for. -/
inductive Refused (parse? : Text → Option Json) (expected : String) (read? : Json → Option α)
    (body : Text) : LoadError → Prop
  | malformed (h : ∀ object values, ¬ Decodes parse? read? body object values) :
      Refused parse? expected read? body .malformed
  | unexpected {object : Text} {values : List α} (h : Decodes parse? read? body object values)
      (hobject : object ≠ expected.toList) :
      Refused parse? expected read? body (.unexpectedObject expected object)

theorem orElse?_list?_eq_some_iff {data : Option Json} {values : List α} :
    Json.orElse? [] (Json.list? read?) data = some values ↔
      (data = none ∧ values = [] ∨ ∃ items, data = some (.array items) ∧
        List.Forall₂ (fun v a => read? v = some a) items values) := by
  cases data with
  | none => simp [Json.orElse?, eq_comm]
  | some j =>
      cases j with
      | array items => simp [Json.orElse?, Json.list?_array_eq_some_iff]
      | _ => simp [Json.orElse?, Json.list?]

theorem decodes_iff {body object : Text} {values : List α} :
    Decodes parse? read? body object values ↔
      ∃ data, (parse? body).bind (Json.record? [.required "object", .optional "data"])
          = some [some (.string object), data] ∧
        Json.orElse? [] (Json.list? read?) data = some values := by
  simp only [Decodes, Option.bind_eq_some_iff, Json.record?_eq_some_iff_gives,
    orElse?_list?_eq_some_iff]
  constructor
  · rintro ⟨j, data, hread, hgives, hvalues⟩
    exact ⟨data, ⟨j, hread, hgives⟩, hvalues⟩
  · rintro ⟨data, ⟨j, hread, hgives⟩, hvalues⟩
    exact ⟨j, data, hread, hgives, hvalues⟩

/-- **A response of any kind is recognized,** and its values are passed on only where a response of
its kind is asked for. -/
theorem readResponse_of_decodes {body object : Text} {values : List α}
    (h : Decodes parse? read? body object values) (expected : String) :
    readResponse parse? expected read? body
      = if object = expected.toList then .ok values
        else .error (.unexpectedObject expected object) := by
  obtain ⟨data, hrecord, hvalues⟩ := decodes_iff.1 h
  rw [readResponse, hrecord]
  simp only [Json.required?, Json.text?, hvalues]

/-- **A body is refused for its reason.** -/
theorem readResponse_of_refused {expected : String} {body : Text} {e : LoadError}
    (h : Refused parse? expected read? body e) :
    readResponse parse? expected read? body = .error e := by
  cases h with
  | unexpected hdecodes hobject => rw [readResponse_of_decodes hdecodes, if_neg hobject]
  | malformed hnone =>
      unfold readResponse
      simp only
      split
      · next object data hrecord =>
          split
          · next object values hobject hvalues =>
              -- what is read as a record with these fields is a response
              rw [Json.required?_text?_eq_some_iff.1 hobject] at hrecord
              exact absurd (decodes_iff.2 ⟨data, hrecord, hvalues⟩) (hnone object values)
          · rfl
      · rfl

theorem decodes_or_refused (parse? : Text → Option Json) (expected : String)
    (read? : Json → Option α) (body : Text) :
    (∃ values, Decodes parse? read? body expected.toList values) ∨
      ∃ e, Refused parse? expected read? body e := by
  by_cases h : ∃ object values, Decodes parse? read? body object values
  · obtain ⟨object, values, hdecodes⟩ := h
    by_cases hobject : object = expected.toList
    · exact Or.inl ⟨values, hobject ▸ hdecodes⟩
    · exact Or.inr ⟨_, .unexpected hdecodes hobject⟩
  · exact Or.inr ⟨_, .malformed fun object values hdecodes => h ⟨object, values, hdecodes⟩⟩

end Catalog

end CardQuery
