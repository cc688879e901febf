import CardQuery.Json.Basic
import CardQuery.Json.Magnitude

/-!
# Reading JSON

`Json.read?` reads a text that is exactly one JSON value, with blanks around it. Strings must not
hold control characters. An escape can be a surrogate that is not half of a pair: it names no
character, so the string has no contents, but it is read to its end and can be skipped. The reader
descends with a bound that the length of the text sets, so it never runs out before the text does.
-/

set_option autoImplicit false

namespace CardQuery.Json

/-- The rest of a text after the blanks that JSON allows. -/
def skipBlanks (t : Text) : Text :=
  t.dropWhile fun c => c = ' ' || c = '\n' || c = '\t' || c = '\r'

/-! ## Strings -/

/-- The value of a hexadecimal digit. -/
def hexDigit? (c : Char) : Option Nat :=
  if '0' ≤ c ∧ c ≤ '9' then some (c.toNat - '0'.toNat)
  else if 'a' ≤ c ∧ c ≤ 'f' then some (c.toNat - 'a'.toNat + 10)
  else if 'A' ≤ c ∧ c ≤ 'F' then some (c.toNat - 'A'.toNat + 10)
  else none

/-- The value of four hexadecimal digits. -/
def hexUnit? (a b c d : Char) : Option Nat := do
  let a ← hexDigit? a
  let b ← hexDigit? b
  let c ← hexDigit? c
  let d ← hexDigit? d
  return ((a * 16 + b) * 16 + c) * 16 + d

/-- The character that a letter stands for after a backslash. -/
def shortEscape? : Char → Option Char
  | '"' => some '"'
  | '\\' => some '\\'
  | '/' => some '/'
  | 'b' => some '\x08'
  | 'f' => some '\x0c'
  | 'n' => some '\n'
  | 'r' => some '\r'
  | 't' => some '\t'
  | _ => none

/-- Whether a unit is the first half of a surrogate pair. -/
def isHighSurrogate (n : Nat) : Bool :=
  0xD800 ≤ n && n < 0xDC00

/-- Whether a unit is the second half of a surrogate pair. -/
def isLowSurrogate (n : Nat) : Bool :=
  0xDC00 ≤ n && n < 0xE000

/-- The contents of a string after its opening quote, if it has any, and the rest after its closing
one. Behind half of a surrogate pair without its other half there are no contents. -/
def readString : Text → Option (Option Text × Text)
  | [] => none
  | '"' :: rest => some (some [], rest)
  | '\\' :: 'u' :: a :: b :: c :: d :: rest =>
    match hexUnit? a b c d with
    | none => none
    | some n =>
      if isHighSurrogate n then
        -- without a second half, what follows is read by itself
        let alone := fun () => (readString rest).map fun (_, rest) => (none, rest)
        match rest with
        | '\\' :: 'u' :: e :: f :: g :: h :: behind =>
          match hexUnit? e f g h with
          | none => none
          | some m =>
            if isLowSurrogate m then
              let code := 0x10000 + (n - 0xD800) * 0x400 + (m - 0xDC00)
              (readString behind).map fun (t, rest) => (t.map (Char.ofNat code :: ·), rest)
            else alone ()
        | _ => alone ()
      else if isLowSurrogate n then (readString rest).map fun (_, rest) => (none, rest)
      else (readString rest).map fun (t, rest) => (t.map (Char.ofNat n :: ·), rest)
  | '\\' :: c :: rest =>
    match shortEscape? c with
    | none => none
    | some c => (readString rest).map fun (t, rest) => (t.map (c :: ·), rest)
  | c :: rest =>
    if c = '\\' ∨ c.toNat < 0x20 then none
    else (readString rest).map fun (t, rest) => (t.map (c :: ·), rest)

/-- What stands in `t` before `rest`, as a value that can only be skipped. -/
def unpairedBefore (t rest : Text) : Json :=
  .unpaired (t.take (t.length - rest.length))

/-- A string that is read from `t`, before `rest`. -/
def stringOf (t : Text) (contents : Option Text) (rest : Text) : Json :=
  match contents with
  | some contents => .string contents
  | none => unpairedBefore t rest

/-- An object that is read from `t`, before `rest`. Each of its names needs contents. -/
def objectOf (t : Text) (members : List (Option Text × Json)) (rest : Text) : Json :=
  match members.mapM fun (name, v) => name.map (·, v) with
  | some members => .object members
  | none => unpairedBefore t rest

/-! ## Numbers -/

/-- The digits a text starts with, which must be at least one, and the rest. -/
def readDigits (t : Text) : Option (Text × Text) :=
  let digits := t.takeWhile Char.isDigit
  if digits.isEmpty then none else some (digits, t.dropWhile Char.isDigit)

/-- The digits before the point: a single zero, or digits that do not start with zero. -/
def readWhole : Text → Option (Text × Text)
  | '0' :: rest => some (['0'], rest)
  | t => readDigits t

/-- The fraction a text starts with, with its point, if it starts with one. -/
def readFraction : Text → Option (Text × Text)
  | '.' :: rest => (readDigits rest).map fun (digits, rest) => ('.' :: digits, rest)
  | t => some ([], t)

/-- The exponent a text starts with, if it starts with one: as it is written, and its value. -/
def readExponent : Text → Option ((Text × Int) × Text)
  | c :: rest =>
    if c = 'e' ∨ c = 'E' then
      let sign := rest.take 1 |>.filter fun c => c = '+' || c = '-'
      (readDigits (rest.drop sign.length)).map fun (digits, rest) =>
        let n := digitsValue digits
        ((c :: sign ++ digits, if sign = ['-'] then -n else n), rest)
    else some (([], 0), c :: rest)
  | [] => some (([], 0), [])

/-- A number, which may have a minus sign. A zero with a minus sign is not an integer. -/
def readNumber (t : Text) : Option (Json × Text) := do
  let negative := t.head? = some '-'
  let (whole, t) ← readWhole (if negative then t.tail else t)
  let (fraction, t) ← readFraction t
  let ((exponent, scale), t) ← readExponent t
  let n := digitsValue whole
  if fraction.isEmpty ∧ exponent.isEmpty ∧ n ≤ maxSignificand ∧ ¬ (negative ∧ n = 0) then
    return (.integer (if negative then -n else n), t)
  let literal := (if negative then ['-'] else []) ++ whole ++ fraction ++ exponent
  if numberOverflows whole (fraction.drop 1) scale then
    return (.overflow literal, t)
  return (.decimal literal, t)

/-! ## Values -/

mutual

/-- A value and the rest of the text, by a descent of at most `fuel` steps. -/
def readValue (fuel : Nat) (t : Text) : Option (Json × Text) :=
  match fuel with
  | 0 => none
  | fuel + 1 =>
    match skipBlanks t with
    | 'n' :: 'u' :: 'l' :: 'l' :: rest => some (.null, rest)
    | 't' :: 'r' :: 'u' :: 'e' :: rest => some (.bool true, rest)
    | 'f' :: 'a' :: 'l' :: 's' :: 'e' :: rest => some (.bool false, rest)
    | '"' :: t =>
      (readString t).map fun (contents, rest) => (stringOf ('"' :: t) contents rest, rest)
    | '[' :: rest =>
      match skipBlanks rest with
      | ']' :: rest => some (.array [], rest)
      | rest => (readItems fuel rest).map fun (items, rest) => (.array items, rest)
    | '{' :: t =>
      match skipBlanks t with
      | '}' :: rest => some (.object [], rest)
      | inner =>
        (readMembers fuel inner).map fun (members, rest) => (objectOf ('{' :: t) members rest, rest)
    | t => readNumber t

/-- The items of an array that is not empty, up to its closing bracket. -/
def readItems (fuel : Nat) (t : Text) : Option (List Json × Text) :=
  match fuel with
  | 0 => none
  | fuel + 1 =>
    match readValue fuel t with
    | none => none
    | some (v, rest) =>
      match skipBlanks rest with
      | ',' :: rest => (readItems fuel rest).map fun (vs, rest) => (v :: vs, rest)
      | ']' :: rest => some ([v], rest)
      | _ => none

/-- The members of an object that is not empty, up to its closing brace. -/
def readMembers (fuel : Nat) (t : Text) : Option (List (Option Text × Json) × Text) :=
  match fuel with
  | 0 => none
  | fuel + 1 =>
    match skipBlanks t with
    | '"' :: rest =>
      match readString rest with
      | none => none
      | some (name, rest) =>
        match skipBlanks rest with
        | ':' :: rest =>
          match readValue fuel rest with
          | none => none
          | some (v, rest) =>
            match skipBlanks rest with
            | ',' :: rest =>
              (readMembers fuel rest).map fun (ms, rest) => ((name, v) :: ms, rest)
            | '}' :: rest => some ([(name, v)], rest)
            | _ => none
        | _ => none
    | _ => none

end

/-- The value of a text that is exactly one JSON value. -/
def read? (t : Text) : Option Json := do
  let (v, rest) ← readValue (2 * t.length + 2) t
  if (skipBlanks rest).isEmpty then some v else none

end CardQuery.Json
