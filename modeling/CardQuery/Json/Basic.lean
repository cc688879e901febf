import CardQuery.Text.Basic

/-!
# JSON values

Catalogs, settings, expressions and queries are exchanged as JSON. A value keeps the members of an
object in the order they were given, repeated names included, because whether a repetition is an
error is for the reader of the record to say. What can stand in a text but has no value is kept as
it is written: it is an error for a reader that asks for it, and not for one that skips it.
-/

set_option autoImplicit false

namespace CardQuery

/-- A JSON value. -/
inductive Json
  | null
  | bool (b : Bool)
  /-- A number written with digits alone, and perhaps a minus sign before a number that is not
  zero, whose digits fit in 64 bits. -/
  | integer (n : Int)
  /-- Any other number that has a nearest double, as it is written. -/
  | decimal (literal : Text)
  /-- A number beyond every double, as it is written. -/
  | overflow (literal : Text)
  | string (t : Text)
  /-- A string with half of a surrogate pair, or an object with such a name, as it is written. -/
  | unpaired (literal : Text)
  | array (items : List Json)
  | object (members : List (Text × Json))
  deriving Repr

namespace Json

mutual

/-- How deeply arrays and objects are nested in a value. -/
def depth : Json → Nat
  | .array items => depthOf items + 1
  | .object members => depthOfMembers members + 1
  | _ => 0

/-- The depth of the deepest of several values. -/
def depthOf : List Json → Nat
  | [] => 0
  | v :: vs => max v.depth (depthOf vs)

/-- The depth of the deepest of several members. -/
def depthOfMembers : List (Text × Json) → Nat
  | [] => 0
  | (_, v) :: ms => max v.depth (depthOfMembers ms)

end

mutual

/-- Whether something in a value can only be skipped: a number beyond every double, or half of a
surrogate pair. -/
def hasUnreadable : Json → Bool
  | .overflow _ | .unpaired _ => true
  | .array items => hasUnreadableIn items
  | .object members => hasUnreadableInMembers members
  | _ => false

/-- Whether there is such a thing in one of several values. -/
def hasUnreadableIn : List Json → Bool
  | [] => false
  | v :: vs => v.hasUnreadable || hasUnreadableIn vs

/-- Whether there is such a thing in one of several members. -/
def hasUnreadableInMembers : List (Text × Json) → Bool
  | [] => false
  | (_, v) :: ms => v.hasUnreadable || hasUnreadableInMembers ms

end

/-- A string value. -/
def ofString (s : String) : Json :=
  .string s.toList

/-- A natural number. -/
def ofNat (n : Nat) : Json :=
  .integer n

/-- An object with these members. -/
def ofMembers (members : List (String × Json)) : Json :=
  .object (members.map fun (name, v) => (name.toList, v))

/-- A value that may be absent, written as null then. -/
def ofOption {α : Type} (write : α → Json) : Option α → Json
  | none => .null
  | some a => write a

/-- The member of an object that is left out when there is no value for it. -/
def optionalMember {α : Type} (name : String) (write : α → Json) (a : Option α) :
    List (String × Json) :=
  a.toList.map fun a => (name, write a)

end Json

end CardQuery
