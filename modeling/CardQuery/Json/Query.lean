import CardQuery.Json.Record
import CardQuery.Query.Request

/-!
# Queries and requests in JSON

Settings that are not given are left out of what is written. A request has its filter and its
settings side by side in one object.
-/

set_option autoImplicit false

namespace CardQuery

/-! ## Settings -/

namespace QuerySettings

/-- The fields of the settings. -/
def fields : List Json.Field :=
  [.optional "order", .optional "dir", .optional "unique"]

/-- The members that write the settings. -/
def members (s : QuerySettings) : List (String × Json) :=
  Json.optionalMember "order" .string s.order ++ Json.optionalMember "dir" .string s.dir
    ++ Json.optionalMember "unique" .string s.unique

/-- Settings as JSON. -/
def toJson (s : QuerySettings) : Json :=
  .ofMembers s.members

/-- The settings that the values of their fields describe. -/
def ofFields? (order dir unique : Option Json) : Option QuerySettings := do
  return ⟨← Json.optional? Json.text? order, ← Json.optional? Json.text? dir,
    ← Json.optional? Json.text? unique⟩

/-- The settings that JSON describes. -/
def ofJson? (j : Json) : Option QuerySettings :=
  match j.record? fields with
  | some [order, dir, unique] => ofFields? order dir unique
  | _ => none

end QuerySettings

namespace SettingKey

/-- The setting with a name. -/
def ofName? (t : Text) : Option SettingKey :=
  [SettingKey.order, .dir, .unique].find? fun key => key.name.toList = t

end SettingKey

/-! ## Queries -/

namespace Segment

/-- The fields of a segment. -/
def fields : List Json.Field :=
  [.required "text", .required "mergedTextNoSetting", .required "from", .required "to",
   .required "settings"]

/-- A segment as JSON. -/
def toJson (s : Segment) : Json :=
  .ofMembers [("text", .string s.text), ("mergedTextNoSetting", .string s.filter),
    ("from", .ofNat s.start), ("to", .ofNat s.stop), ("settings", s.settings.toJson)]

/-- The segment that JSON describes. -/
def ofJson? (j : Json) : Option Segment :=
  match j.record? fields with
  | some [text, filter, start, stop, settings] => do
    return ⟨← Json.required? Json.text? text, ← Json.required? Json.text? filter,
      ← Json.required? Json.offset? start, ← Json.required? Json.offset? stop,
      ← Json.required? QuerySettings.ofJson? settings⟩
  | _ => none

end Segment

namespace QueryName

/-- The fields of a name. -/
def fields : List Json.Field :=
  [.required "text", .required "from", .required "to"]

/-- A name as JSON. -/
def toJson (n : QueryName) : Json :=
  .ofMembers [("text", .string n.text), ("from", .ofNat n.start), ("to", .ofNat n.stop)]

/-- The name that JSON describes. -/
def ofJson? (j : Json) : Option QueryName :=
  match j.record? fields with
  | some [text, start, stop] => do
    return ⟨← Json.required? Json.text? text, ← Json.required? Json.offset? start,
      ← Json.required? Json.offset? stop⟩
  | _ => none

end QueryName

namespace Query

/-- The fields of a query. -/
def fields : List Json.Field :=
  [.keyed "name", .required "body"]

/-- A query as JSON. -/
def toJson (q : Query) : Json :=
  .ofMembers [("name", .ofOption QueryName.toJson q.name), ("body", q.body.toJson)]

/-- The query that JSON describes. -/
def ofJson? (j : Json) : Option Query :=
  match j.record? fields with
  | some [name, body] => do
    return ⟨← Json.optional? QueryName.ofJson? name, ← Json.required? Segment.ofJson? body⟩
  | _ => none

end Query

namespace QueryDocument

/-- The fields of a query document. -/
def fields : List Json.Field :=
  [.keyed "domain", .required "queries"]

/-- A query document as JSON. -/
def toJson (d : QueryDocument) : Json :=
  .ofMembers [("domain", .ofOption Segment.toJson d.domain),
    ("queries", .array (d.queries.map Query.toJson))]

/-- The query document that JSON describes. -/
def ofJson? (j : Json) : Option QueryDocument :=
  match j.record? fields with
  | some [domain, queries] => do
    return ⟨← Json.optional? Segment.ofJson? domain,
      ← Json.required? (Json.list? Query.ofJson?) queries⟩
  | _ => none

end QueryDocument

/-! ## Requests -/

namespace SearchRequest

/-- The fields of a request. -/
def fields : List Json.Field :=
  .required "q" :: QuerySettings.fields

/-- A request as JSON. -/
def toJson (r : SearchRequest) : Json :=
  .ofMembers (("q", .string r.filter) :: r.settings.members)

/-- The request that JSON describes. -/
def ofJson? (j : Json) : Option SearchRequest :=
  match j.record? fields with
  | some [q, order, dir, unique] => do
    return ⟨← Json.required? Json.text? q, ← QuerySettings.ofFields? order dir unique⟩
  | _ => none

end SearchRequest

end CardQuery
