import CardQuery.Json.Basic

/-!
# Writing JSON

Two layouts: `Json.compact` writes a value without blanks, and `Json.pretty` puts each item and
member on a line of its own, indented by two spaces for each level. The line separators of
Unicode are escaped with the control characters, so a compact value is always one line.
-/

set_option autoImplicit false

namespace CardQuery.Json

/-- The hexadecimal digit of a number below 16. -/
def hexDigit (n : Nat) : Char :=
  if n < 10 then Char.ofNat ('0'.toNat + n) else Char.ofNat ('a'.toNat + (n - 10))

/-- The escape of a code point below 0x10000. -/
def unitEscape (n : Nat) : Text :=
  ['\\', 'u', hexDigit (n / 0x1000 % 16), hexDigit (n / 0x100 % 16), hexDigit (n / 0x10 % 16),
    hexDigit (n % 16)]

/-- A character as it is written in a string. -/
def escapeChar (c : Char) : Text :=
  match c with
  | '"' => ['\\', '"']
  | '\\' => ['\\', '\\']
  | '\x08' => ['\\', 'b']
  | '\x0c' => ['\\', 'f']
  | '\n' => ['\\', 'n']
  | '\r' => ['\\', 'r']
  | '\t' => ['\\', 't']
  | c =>
    if c.toNat < 0x20 ∨ c.toNat = 0x85 ∨ c.toNat = 0x2028 ∨ c.toNat = 0x2029 then
      unitEscape c.toNat
    else [c]

/-- A text as a string in quotes, before `rest`. -/
def writeString (t rest : Text) : Text :=
  '"' :: t.foldr (fun c rest => escapeChar c ++ rest) ('"' :: rest)

/-- A value that is neither array nor object, before `rest`. -/
def writeScalar (v : Json) (rest : Text) : Text :=
  match v with
  | .null => "null".toList ++ rest
  | .bool true => "true".toList ++ rest
  | .bool false => "false".toList ++ rest
  | .integer n => (toString n).toList ++ rest
  | .decimal literal | .overflow literal | .unpaired literal => literal ++ rest
  | .string t => writeString t rest
  | .array _ | .object _ => rest

mutual

/-- A value without blanks, before `rest`. -/
def writeCompact (v : Json) (rest : Text) : Text :=
  match v with
  | .array [] => '[' :: ']' :: rest
  | .array (v :: vs) => '[' :: writeCompact v (writeCompactItems vs (']' :: rest))
  | .object [] => '\x7b' :: '\x7d' :: rest
  | .object ((name, v) :: ms) =>
    '\x7b' :: writeString name (':' :: writeCompact v (writeCompactMembers ms ('\x7d' :: rest)))
  | v => writeScalar v rest

/-- The further items of an array, each after a comma. -/
def writeCompactItems (vs : List Json) (rest : Text) : Text :=
  match vs with
  | [] => rest
  | v :: vs => ',' :: writeCompact v (writeCompactItems vs rest)

/-- The further members of an object, each after a comma. -/
def writeCompactMembers (ms : List (Text × Json)) (rest : Text) : Text :=
  match ms with
  | [] => rest
  | (name, v) :: ms =>
    ',' :: writeString name (':' :: writeCompact v (writeCompactMembers ms rest))

end

/-- The text of a value without blanks. -/
def compact (v : Json) : Text :=
  writeCompact v []

/-- A new line at an indentation level, before `rest`. -/
def newLine (level : Nat) (rest : Text) : Text :=
  '\n' :: (List.replicate (2 * level) ' ' ++ rest)

mutual

/-- A value on several lines at an indentation level, before `rest`. -/
def writePretty (level : Nat) (v : Json) (rest : Text) : Text :=
  match v with
  | .array [] => '[' :: ']' :: rest
  | .array (v :: vs) =>
    '[' :: newLine (level + 1) (writePretty (level + 1) v
      (writePrettyItems (level + 1) vs (newLine level (']' :: rest))))
  | .object [] => '\x7b' :: '\x7d' :: rest
  | .object ((name, v) :: ms) =>
    '\x7b' :: newLine (level + 1) (writeString name (':' :: ' ' :: writePretty (level + 1) v
      (writePrettyMembers (level + 1) ms (newLine level ('\x7d' :: rest)))))
  | v => writeScalar v rest

/-- The further items of an array, each on a line of its own. -/
def writePrettyItems (level : Nat) (vs : List Json) (rest : Text) : Text :=
  match vs with
  | [] => rest
  | v :: vs => ',' :: newLine level (writePretty level v (writePrettyItems level vs rest))

/-- The further members of an object, each on a line of its own. -/
def writePrettyMembers (level : Nat) (ms : List (Text × Json)) (rest : Text) : Text :=
  match ms with
  | [] => rest
  | (name, v) :: ms =>
    ',' :: newLine level (writeString name (':' :: ' ' :: writePretty level v
      (writePrettyMembers level ms rest)))

end

/-- The text of a value on several lines. -/
def pretty (v : Json) : Text :=
  writePretty 0 v []

end CardQuery.Json
