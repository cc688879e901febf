import CardQuery.Catalog.Vocabulary

/-!
# Catalogs

A `Catalog` holds the values that completion offers: lists that come with the program, and lists
that are filled from the responses of a card service. The lists that a response can fill are
named by `CatalogField`.
-/

set_option autoImplicit false

namespace CardQuery

/-- A card set. -/
structure SetInfo where
  code : Text
  name : Text
  released : Option Text
  deriving DecidableEq, Repr

/-- The values known for the arguments of tags. -/
structure Catalog where
  cardNames : List Text
  artistNames : List Text
  cardTypes : List Text
  creatureTypes : List Text
  artifactTypes : List Text
  enchantmentTypes : List Text
  landTypes : List Text
  planeswalkerTypes : List Text
  battleTypes : List Text
  spellTypes : List Text
  supertypes : List Text
  powers : List Text
  toughnesses : List Text
  loyalties : List Text
  watermarks : List Text
  keywordAbilities : List Text
  keywordActions : List Text
  abilityWords : List Text
  formats : List Text
  rarities : List Text
  colors : List Text
  properties : List Text
  borders : List Text
  frames : List Text
  stamps : List Text
  games : List Text
  products : List Text
  cubes : List Text
  uniques : List Text
  orders : List Text
  directions : List Text
  sets : List SetInfo
  otags : List Text
  atags : List Text
  deriving DecidableEq, Repr

/-- The lists that a response can fill. -/
inductive CatalogField
  | cardNames | artistNames | cardTypes | creatureTypes | artifactTypes | enchantmentTypes
  | landTypes | planeswalkerTypes | battleTypes | spellTypes | supertypes | powers
  | toughnesses | loyalties | watermarks | keywordAbilities | keywordActions | abilityWords
  deriving DecidableEq, Repr

namespace CatalogField

/-- Every field, in the order of the catalog. -/
def every : List CatalogField :=
  [.cardNames, .artistNames, .cardTypes, .creatureTypes, .artifactTypes, .enchantmentTypes,
   .landTypes, .planeswalkerTypes, .battleTypes, .spellTypes, .supertypes, .powers,
   .toughnesses, .loyalties, .watermarks, .keywordAbilities, .keywordActions, .abilityWords]

/-- The name that the card service gives a field. -/
def endpoint : CatalogField → String
  | .cardNames => "card-names"
  | .artistNames => "artist-names"
  | .cardTypes => "card-types"
  | .creatureTypes => "creature-types"
  | .artifactTypes => "artifact-types"
  | .enchantmentTypes => "enchantment-types"
  | .landTypes => "land-types"
  | .planeswalkerTypes => "planeswalker-types"
  | .battleTypes => "battle-types"
  | .spellTypes => "spell-types"
  | .supertypes => "supertypes"
  | .powers => "powers"
  | .toughnesses => "toughnesses"
  | .loyalties => "loyalties"
  | .watermarks => "watermarks"
  | .keywordAbilities => "keyword-abilities"
  | .keywordActions => "keyword-actions"
  | .abilityWords => "ability-words"

/-- The field with a name. -/
def ofEndpoint? (name : Text) : Option CatalogField :=
  every.find? fun f => f.endpoint.toList = name

end CatalogField

namespace Catalog

/-- The catalog before any response: the fixed vocabularies, and nothing in the other lists. -/
def initial : Catalog where
  cardNames := []
  artistNames := []
  cardTypes := Vocabulary.cardTypes
  creatureTypes := []
  artifactTypes := []
  enchantmentTypes := []
  landTypes := []
  planeswalkerTypes := []
  battleTypes := []
  spellTypes := []
  supertypes := Vocabulary.supertypes
  powers := []
  toughnesses := []
  loyalties := []
  watermarks := []
  keywordAbilities := []
  keywordActions := []
  abilityWords := []
  formats := Vocabulary.formats
  rarities := Vocabulary.rarities
  colors := Vocabulary.colors
  properties := Vocabulary.properties
  borders := Vocabulary.borders
  frames := Vocabulary.frames
  stamps := Vocabulary.stamps
  games := Vocabulary.games
  products := Vocabulary.products
  cubes := Vocabulary.cubes
  uniques := Vocabulary.uniques
  orders := Vocabulary.orders
  directions := Vocabulary.directions
  sets := []
  otags := []
  atags := []

/-- The values of a field. -/
def field (c : Catalog) : CatalogField → List Text
  | .cardNames => c.cardNames
  | .artistNames => c.artistNames
  | .cardTypes => c.cardTypes
  | .creatureTypes => c.creatureTypes
  | .artifactTypes => c.artifactTypes
  | .enchantmentTypes => c.enchantmentTypes
  | .landTypes => c.landTypes
  | .planeswalkerTypes => c.planeswalkerTypes
  | .battleTypes => c.battleTypes
  | .spellTypes => c.spellTypes
  | .supertypes => c.supertypes
  | .powers => c.powers
  | .toughnesses => c.toughnesses
  | .loyalties => c.loyalties
  | .watermarks => c.watermarks
  | .keywordAbilities => c.keywordAbilities
  | .keywordActions => c.keywordActions
  | .abilityWords => c.abilityWords

/-- The catalog with other values in a field. -/
def withField (c : Catalog) (f : CatalogField) (values : List Text) : Catalog :=
  match f with
  | .cardNames => { c with cardNames := values }
  | .artistNames => { c with artistNames := values }
  | .cardTypes => { c with cardTypes := values }
  | .creatureTypes => { c with creatureTypes := values }
  | .artifactTypes => { c with artifactTypes := values }
  | .enchantmentTypes => { c with enchantmentTypes := values }
  | .landTypes => { c with landTypes := values }
  | .planeswalkerTypes => { c with planeswalkerTypes := values }
  | .battleTypes => { c with battleTypes := values }
  | .spellTypes => { c with spellTypes := values }
  | .supertypes => { c with supertypes := values }
  | .powers => { c with powers := values }
  | .toughnesses => { c with toughnesses := values }
  | .loyalties => { c with loyalties := values }
  | .watermarks => { c with watermarks := values }
  | .keywordAbilities => { c with keywordAbilities := values }
  | .keywordActions => { c with keywordActions := values }
  | .abilityWords => { c with abilityWords := values }

/-- The catalog with other oracle tags. -/
def withOtags (c : Catalog) (values : List Text) : Catalog :=
  { c with otags := values }

/-- The catalog with other art tags. -/
def withAtags (c : Catalog) (values : List Text) : Catalog :=
  { c with atags := values }

end Catalog

end CardQuery
