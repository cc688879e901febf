import CardQuery.Json.Basic

/-!
# Records in JSON

A record is read from an object or from an array of its fields in their order. Members with
unknown names are ignored, a name given twice is refused, and so are an array with too many items
and a field that is missing without a replacement.

`Json.record?` looks up the fields and leaves each as an optional value; the readers `required?`,
`optional?` and `orElse?` turn such a value into what the field holds.
-/

set_option autoImplicit false

namespace CardQuery.Json

/-- What to do when a field is missing. -/
inductive Absence
  /-- The record is refused. -/
  | refused
  /-- An object may leave the field out; an array may not. -/
  | keyed
  /-- The field may be left out. -/
  | allowed
  deriving DecidableEq, Repr

/-- A field of a record: the names it can be given by, and whether it can be missing. -/
structure Field where
  names : List Text
  absence : Absence
  deriving DecidableEq, Repr

namespace Field

/-- A field that must be given. -/
def required (name : String) : Field :=
  ⟨[name.toList], .refused⟩

/-- A field that an object may leave out. -/
def keyed (name : String) : Field :=
  ⟨[name.toList], .keyed⟩

/-- A field that may be left out. -/
def optional (name : String) : Field :=
  ⟨[name.toList], .allowed⟩

end Field

/-- The value of a field among the members of an object; nothing when the field is refused. -/
def memberOf? (members : List (Text × Json)) (f : Field) : Option (Option Json) :=
  match members.filter fun m => f.names.contains m.1 with
  | [] => if f.absence = .refused then none else some none
  | [m] => some (some m.2)
  | _ => none

/-- The values of the fields in an array of them. -/
def itemsOf? : List Field → List Json → Option (List (Option Json))
  | [], [] => some []
  | [], _ :: _ => none
  | f :: fs, [] => if f.absence = .allowed then (itemsOf? fs []).map (none :: ·) else none
  | _ :: fs, v :: vs => (itemsOf? fs vs).map (some v :: ·)

/-- The values of the fields of a record, in the order of the fields. -/
def record? (fields : List Field) : Json → Option (List (Option Json))
  | .object members => fields.mapM (memberOf? members)
  | .array items => itemsOf? fields items
  | _ => none

/-! ## Reading values -/

/-- The text of a string. -/
def text? : Json → Option Text
  | .string t => some t
  | _ => none

/-- A truth value. -/
def bool? : Json → Option Bool
  | .bool b => some b
  | _ => none

/-- A byte position. -/
def offset? : Json → Option Nat
  | .integer n => if 0 ≤ n ∧ n.toNat ≤ maxOffset then some n.toNat else none
  | _ => none

/-- A list of values of one kind. -/
def list? {α : Type} (read? : Json → Option α) : Json → Option (List α)
  | .array items => items.mapM read?
  | _ => none

/-- A value or null. -/
def nullable? {α : Type} (read? : Json → Option α) : Json → Option (Option α)
  | .null => some none
  | v => (read? v).map some

/-- A field that was given. -/
def required? {α : Type} (read? : Json → Option α) : Option Json → Option α
  | none => none
  | some v => read? v

/-- A field that may be missing or null. -/
def optional? {α : Type} (read? : Json → Option α) : Option Json → Option (Option α)
  | none => some none
  | some v => nullable? read? v

/-- A field with a value for when it is missing. -/
def orElse? {α : Type} (replacement : α) (read? : Json → Option α) : Option Json → Option α
  | none => some replacement
  | some v => read? v

end CardQuery.Json
