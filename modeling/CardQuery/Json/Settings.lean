import CardQuery.Editor.Settings
import CardQuery.Json.File
import CardQuery.Json.Reader
import CardQuery.Json.Record
import CardQuery.Json.Writer

/-!
# Editor settings in JSON

A setting that is missing keeps its initial value, so a settings file holds only what it changes.
-/

set_option autoImplicit false

namespace CardQuery.EditorSettings

/-- The fields of the settings. -/
def fields : List Json.Field :=
  [.optional "autoDetail", .optional "autoInfo"]

/-- Settings as JSON. -/
def toJson (s : EditorSettings) : Json :=
  .ofMembers [("autoDetail", .bool s.autoDetail), ("autoInfo", .bool s.autoInfo)]

/-- The settings that JSON describes. -/
def ofJson? (j : Json) : Option EditorSettings :=
  match j.record? fields with
  | some [detail, info] => do
    return ⟨← Json.orElse? initial.autoDetail Json.bool? detail,
      ← Json.orElse? initial.autoInfo Json.bool? info⟩
  | _ => none

/-- The settings in a text. -/
def ofText (t : Text) : Except LoadError EditorSettings :=
  match (Json.read? t).bind ofJson? with
  | some s => .ok s
  | none => .error .malformed

/-- The settings in a file. -/
def load (file : Option ByteArray) : Except LoadError EditorSettings :=
  fileText file >>= ofText

/-- The text of a settings file. -/
def fileContents (s : EditorSettings) : Text :=
  s.toJson.pretty

end CardQuery.EditorSettings
