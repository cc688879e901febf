import CardQuery.Text.Basic

/-!
# Files and what can go wrong with them

A file is the bytes in it, and a file that is not there has none. Its text is there only when the
bytes are UTF-8.
-/

set_option autoImplicit false

namespace CardQuery

/-- Why catalogs and settings cannot be read. -/
inductive LoadError
  /-- The file is missing or its bytes are no text. -/
  | unreadable
  /-- The text is not JSON, or describes something else. -/
  | malformed
  /-- A response that describes another thing than the one asked for. -/
  | unexpectedObject (expected : String) (found : Text)
  /-- No field of a catalog has this name. -/
  | unknownField (name : Text)
  deriving DecidableEq, Repr

/-- The message for an error. -/
def LoadError.message : LoadError → Text
  | .unreadable => "IO error".toList
  | .malformed => "JSON error".toList
  | .unexpectedObject expected found =>
    "Invalid response: expected a ".toList ++ expected.toList ++ " object, found '".toList ++ found
      ++ "'".toList
  | .unknownField name => "Unknown catalog field: ".toList ++ name

/-- The text of a file. -/
def fileText (file : Option ByteArray) : Except LoadError Text :=
  match file.bind String.fromUTF8? with
  | some s => .ok s.toList
  | none => .error .unreadable

end CardQuery
