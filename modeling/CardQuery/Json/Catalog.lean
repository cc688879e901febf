import CardQuery.Catalog.Basic
import CardQuery.Json.File
import CardQuery.Json.Reader
import CardQuery.Json.Record

/-!
# Catalogs in JSON

A catalog is a record with one field for each of its lists; a list that is missing keeps its
initial values. The responses of the card service fill single lists: a response names the kind of
object it is, and one of another kind changes nothing. The service sends a text, and which JSON value
that is, is left to a parameter: a catalog is filled the same way with any reader of JSON.
-/

set_option autoImplicit false

namespace CardQuery

/-! ## Sets -/

namespace SetInfo

/-- The fields of a set. The release can be given by two names. -/
def fields : List Json.Field :=
  [.required "code", .required "name", ⟨["released".toList, "released_at".toList], .allowed⟩]

/-- A set as JSON. -/
def toJson (s : SetInfo) : Json :=
  .ofMembers ([("code", .string s.code), ("name", .string s.name)]
    ++ Json.optionalMember "released" .string s.released)

/-- The set that JSON describes. -/
def ofJson? (j : Json) : Option SetInfo :=
  match j.record? fields with
  | some [code, name, released] => do
    return ⟨← Json.required? Json.text? code, ← Json.required? Json.text? name,
      ← Json.optional? Json.text? released⟩
  | _ => none

end SetInfo

/-! ## Catalogs -/

/-- A list of a catalog: its name in JSON, and how it is written and read. -/
structure CatalogColumn where
  name : String
  write : Catalog → Json
  read? : Json → Catalog → Option Catalog

/-- A list of texts. -/
def CatalogColumn.texts (name : String) (get : Catalog → List Text)
    (set : List Text → Catalog → Catalog) : CatalogColumn :=
  ⟨name, fun c => .array ((get c).map .string),
    fun j c => (Json.list? Json.text? j).map fun v => set v c⟩

namespace Catalog

/-- The lists of a catalog in order. -/
def columns : List CatalogColumn :=
  [.texts "card_names" Catalog.cardNames fun v c => { c with cardNames := v },
   .texts "artist_names" Catalog.artistNames fun v c => { c with artistNames := v },
   .texts "card_types" Catalog.cardTypes fun v c => { c with cardTypes := v },
   .texts "creature_types" Catalog.creatureTypes fun v c => { c with creatureTypes := v },
   .texts "artifact_types" Catalog.artifactTypes fun v c => { c with artifactTypes := v },
   .texts "enchantment_types" Catalog.enchantmentTypes fun v c => { c with enchantmentTypes := v },
   .texts "land_types" Catalog.landTypes fun v c => { c with landTypes := v },
   .texts "planeswalker_types" Catalog.planeswalkerTypes
     fun v c => { c with planeswalkerTypes := v },
   .texts "battle_types" Catalog.battleTypes fun v c => { c with battleTypes := v },
   .texts "spell_types" Catalog.spellTypes fun v c => { c with spellTypes := v },
   .texts "supertypes" Catalog.supertypes fun v c => { c with supertypes := v },
   .texts "powers" Catalog.powers fun v c => { c with powers := v },
   .texts "toughnesses" Catalog.toughnesses fun v c => { c with toughnesses := v },
   .texts "loyalties" Catalog.loyalties fun v c => { c with loyalties := v },
   .texts "watermarks" Catalog.watermarks fun v c => { c with watermarks := v },
   .texts "keyword_abilities" Catalog.keywordAbilities fun v c => { c with keywordAbilities := v },
   .texts "keyword_actions" Catalog.keywordActions fun v c => { c with keywordActions := v },
   .texts "ability_words" Catalog.abilityWords fun v c => { c with abilityWords := v },
   .texts "formats" Catalog.formats fun v c => { c with formats := v },
   .texts "rarities" Catalog.rarities fun v c => { c with rarities := v },
   .texts "colors" Catalog.colors fun v c => { c with colors := v },
   .texts "is_values" Catalog.properties fun v c => { c with properties := v },
   .texts "borders" Catalog.borders fun v c => { c with borders := v },
   .texts "frames" Catalog.frames fun v c => { c with frames := v },
   .texts "stamps" Catalog.stamps fun v c => { c with stamps := v },
   .texts "games" Catalog.games fun v c => { c with games := v },
   .texts "products" Catalog.products fun v c => { c with products := v },
   .texts "cubes" Catalog.cubes fun v c => { c with cubes := v },
   .texts "uniques" Catalog.uniques fun v c => { c with uniques := v },
   .texts "orders" Catalog.orders fun v c => { c with orders := v },
   .texts "directions" Catalog.directions fun v c => { c with directions := v },
   ⟨"sets", fun c => .array (c.sets.map SetInfo.toJson),
     fun j c => (Json.list? SetInfo.ofJson? j).map fun v => { c with sets := v }⟩,
   .texts "otags" Catalog.otags fun v c => { c with otags := v },
   .texts "atags" Catalog.atags fun v c => { c with atags := v }]

/-- A catalog as JSON. -/
def toJson (c : Catalog) : Json :=
  .ofMembers (columns.map fun col => (col.name, col.write c))

/-- The catalog `c` with the lists that are given. -/
def readColumns? (c : Catalog) : List (CatalogColumn × Option Json) → Option Catalog
  | [] => some c
  | (_, none) :: rest => readColumns? c rest
  | (col, some j) :: rest => (col.read? j c).bind fun c => readColumns? c rest

/-- The catalog that JSON describes. -/
def ofJson? (j : Json) : Option Catalog := do
  let values ← j.record? (columns.map fun col => .optional col.name)
  readColumns? initial (columns.zip values)

/-- The catalog in a text. -/
def ofText (t : Text) : Except LoadError Catalog :=
  match (Json.read? t).bind ofJson? with
  | some c => .ok c
  | none => .error .malformed

/-- The catalog in a file. -/
def load (file : Option ByteArray) : Except LoadError Catalog :=
  fileText file >>= ofText

/-! ## Responses -/

/-- The values in a response that must be an object of the kind `expected`. Its text is read by
`parse?`, and each of its values by `read?`. -/
def readResponse {α : Type} (parse? : Text → Option Json) (expected : String)
    (read? : Json → Option α) (body : Text) : Except LoadError (List α) :=
  let fields := [.required "object", .optional "data"]
  match (parse? body).bind (Json.record? fields) with
  | some [object, data] =>
    match Json.required? Json.text? object, Json.orElse? [] (Json.list? read?) data with
    | some object, some values =>
      if object = expected.toList then .ok values else .error (.unexpectedObject expected object)
    | _, _ => .error .malformed
  | _ => .error .malformed

/-- The catalog with a field filled from a response. -/
def fillField (parse? : Text → Option Json) (c : Catalog) (f : CatalogField) (body : Text) :
    Except LoadError Catalog :=
  (readResponse parse? "catalog" Json.text? body).map (c.withField f)

/-- The catalog with its sets filled from a response. -/
def fillSets (parse? : Text → Option Json) (c : Catalog) (body : Text) : Except LoadError Catalog :=
  (readResponse parse? "list" SetInfo.ofJson? body).map fun sets => { c with sets := sets }

/-- The catalog with a field filled from a response that is read by `Json.read?`. -/
def withResponse (c : Catalog) (f : CatalogField) (body : Text) : Except LoadError Catalog :=
  c.fillField Json.read? f body

/-- The catalog with its sets filled from a response that is read by `Json.read?`. -/
def withSetsResponse (c : Catalog) (body : Text) : Except LoadError Catalog :=
  c.fillSets Json.read? body

/-- The field that a name means. -/
def fieldOfName (name : Text) : Except LoadError CatalogField :=
  match CatalogField.ofEndpoint? name with
  | some f => .ok f
  | none => .error (.unknownField name)

end Catalog

end CardQuery
