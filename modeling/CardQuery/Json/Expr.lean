import CardQuery.Expr.Document
import CardQuery.Json.Reader
import CardQuery.Json.Record

/-!
# Tags, expressions and documents in JSON

An expression is an object that names its form in the member `type`, with the parts of that form in
further members. Inside another expression it may give the number of its form instead of the name.
An expression read from a text may be nested 127 deep and no deeper. Nothing in its text is skipped:
no member, ignored or not, may hold a number beyond every double or half of a surrogate pair.
-/

set_option autoImplicit false

namespace CardQuery

/-! ## Tags -/

namespace QueryTag

/-- The fields of a tag. -/
def fields : List Json.Field :=
  [.optional "prefix", .required "argument", .required "operator", .required "value"]

/-- A tag as JSON; the sign is left out when there is none. -/
def toJson (t : QueryTag) : Json :=
  .ofMembers (Json.optionalMember "prefix" .string t.sign ++
    [("argument", .string t.argument), ("operator", .string t.operator),
     ("value", .string t.value)])

/-- The tag that JSON describes. -/
def ofJson? (j : Json) : Option QueryTag :=
  match j.record? fields with
  | some [sign, argument, operator, value] => do
    return ⟨← Json.optional? Json.text? sign, ← Json.required? Json.text? argument,
      ← Json.required? Json.text? operator, ← Json.required? Json.text? value⟩
  | _ => none

end QueryTag

/-! ## Expressions -/

namespace Connective

/-- The name of a connective. -/
def name : Connective → String
  | .and => "and"
  | .or => "or"

/-- The connective with a name. -/
def ofName? (t : Text) : Option Connective :=
  if t = Connective.and.name.toList then some .and
  else if t = Connective.or.name.toList then some .or
  else none

/-- The connective that JSON names: a string, or an object whose one member has the name and holds
nothing, which is null or an empty object. -/
def ofJson? : Json → Option Connective
  | .string t => ofName? t
  | .object [(t, .null)] | .object [(t, .object [])] => ofName? t
  | _ => none

end Connective

/-- What an expression can be. -/
inductive ExprForm
  | tag | binary | clause
  deriving DecidableEq, Repr

namespace ExprForm

/-- Every form, in the order of their numbers. -/
def every : List ExprForm :=
  [.tag, .binary, .clause]

/-- The name of a form. -/
def name : ExprForm → String
  | .tag => "tag"
  | .binary => "binary"
  | .clause => "clause"

/-- The form that JSON names. -/
def named? : Json → Option ExprForm
  | .string t => every.find? fun form => form.name.toList = t
  | _ => none

/-- The form that JSON names or gives the number of. -/
def namedOrNumbered? : Json → Option ExprForm
  | .integer (.ofNat n) => every[n]?
  | j => named? j

end ExprForm

namespace Expr

/-- How deeply the JSON of an expression may be nested in a text. -/
def maxDepth : Nat := 127

/-- An expression as JSON. -/
def toJson : Expr → Json
  | .tag t => .ofMembers [("type", .ofString ExprForm.tag.name), ("tag", t.toJson)]
  | .binary op l r =>
    .ofMembers [("type", .ofString ExprForm.binary.name), ("op", .ofString op.name),
      ("left", l.toJson), ("right", r.toJson)]
  | .clause e => .ofMembers [("type", .ofString ExprForm.clause.name), ("content", e.toJson)]

/-- A member of an object with the expression that its value describes. -/
structure Member where
  name : Text
  value : Json
  expr : Option Expr

/-- The member with a name, if there is just one. -/
def member? (members : List Member) (name : String) : Option Member :=
  match members.filter fun m => m.name = name.toList with
  | [m] => some m
  | _ => none

/-- The expression with these members, whose form is read by `form?`. -/
def ofMembers? (form? : Json → Option ExprForm) (members : List Member) : Option Expr := do
  match ← form? (← member? members "type").value with
  | .tag => return .tag (← QueryTag.ofJson? (← member? members "tag").value)
  | .binary =>
    return .binary (← Connective.ofJson? (← member? members "op").value)
      (← (← member? members "left").expr) (← (← member? members "right").expr)
  | .clause => return .clause (← (← member? members "content").expr)

mutual

/-- The expression that JSON describes inside another expression. -/
def partOfJson? : Json → Option Expr
  | .object members => ofMembers? ExprForm.namedOrNumbered? (membersOfJson members)
  | _ => none

/-- Members with the expressions that their values describe. -/
def membersOfJson : List (Text × Json) → List Member
  | [] => []
  | (name, v) :: ms => ⟨name, v, partOfJson? v⟩ :: membersOfJson ms

end

/-- The expression that JSON describes. -/
def ofJson? : Json → Option Expr
  | .object members => ofMembers? ExprForm.named? (membersOfJson members)
  | _ => none

/-- The expression in a text. -/
def read? (t : Text) : Option Expr := do
  let j ← Json.read? t
  if j.depth ≤ maxDepth ∧ ¬ j.hasUnreadable then ofJson? j else none

end Expr

/-! ## Documents -/

namespace DocumentEntry

/-- The fields of an entry. -/
def fields : List Json.Field :=
  [.keyed "name", .keyed "expr"]

/-- An entry as JSON. -/
def toJson (q : DocumentEntry) : Json :=
  .ofMembers [("name", .ofOption .string q.name), ("expr", .ofOption Expr.toJson q.expr)]

/-- The entry that JSON describes. -/
def ofJson? (j : Json) : Option DocumentEntry :=
  match j.record? fields with
  | some [name, expr] => do
    return ⟨← Json.optional? Json.text? name, ← Json.optional? Expr.ofJson? expr⟩
  | _ => none

end DocumentEntry

namespace Document

/-- The fields of a document. -/
def fields : List Json.Field :=
  [.keyed "domain", .required "queries"]

/-- A document as JSON. -/
def toJson (d : Document) : Json :=
  .ofMembers [("domain", .ofOption Expr.toJson d.domain),
    ("queries", .array (d.entries.map DocumentEntry.toJson))]

/-- The document that JSON describes. -/
def ofJson? (j : Json) : Option Document :=
  match j.record? fields with
  | some [domain, queries] => do
    return ⟨← Json.optional? Expr.ofJson? domain,
      ← Json.required? (Json.list? DocumentEntry.ofJson?) queries⟩
  | _ => none

end Document

end CardQuery
