import CardQuery.Text.Basic

/-!
# Fixed vocabularies

The values that a search accepts and that no response lists.
-/

set_option autoImplicit false

namespace CardQuery.Vocabulary

/-- The formats that cards are legal in. -/
def formats : List Text :=
  ["standard", "future", "historic", "timeless", "gladiator", "pioneer", "explorer", "modern",
   "legacy", "pauper", "vintage", "penny", "commander", "oathbreaker", "standardbrawl", "brawl",
   "alchemy", "paupercommander", "duel", "oldschool", "premodern", "predh"].map String.toList

/-- The rarities. -/
def rarities : List Text :=
  ["common", "uncommon", "rare", "special", "mythic", "bonus"].map String.toList

/-- The colors, by letter, by name and by the names of their combinations. -/
def colors : List Text :=
  ["w", "u", "b", "r", "g", "c", "m", "white", "blue", "black", "red", "green", "colorless",
   "multicolor", "azorius", "dimir", "rakdos", "gruul", "selesnya", "orzhov", "izzet",
   "golgari", "boros", "simic", "bant", "esper", "grixis", "jund", "naya", "abzan", "jeskai",
   "sultai", "mardu", "temur"].map String.toList

/-- The properties that a card can have. -/
def properties : List Text :=
  ["split", "flip", "transform", "mdfc", "dfc", "meld", "leveler", "commander", "companion",
   "spell", "permanent", "historic", "party", "modal", "vanilla", "frenchvanilla", "bear",
   "funny", "full", "foil", "nonfoil", "etched", "glossy", "hires", "digital", "promo",
   "spotlight", "reprint", "unique", "firstprint", "booster", "reserved", "token", "fetchland",
   "shockland", "dual", "fastland"].map String.toList

/-- The borders. -/
def borders : List Text :=
  ["black", "white", "silver", "gold", "borderless"].map String.toList

/-- The frames and frame effects. -/
def frames : List Text :=
  ["1993", "1997", "2003", "2015", "future", "legendary", "colorshifted", "tombstone",
   "enchantment", "showcase", "extendedart", "etched", "inverted"].map String.toList

/-- The security stamps. -/
def stamps : List Text :=
  ["oval", "acorn", "triangle", "arena"].map String.toList

/-- The games. -/
def games : List Text :=
  ["paper", "mtgo", "arena"].map String.toList

/-- The types of set. -/
def products : List Text :=
  ["core", "expansion", "masters", "alchemy", "masterpiece", "arsenal", "from_the_vault",
   "spellbook", "premium_deck", "duel_deck", "draft_innovation", "treasure_chest", "commander",
   "planechase", "archenemy", "vanguard", "funny", "starter", "box", "promo", "token",
   "memorabilia", "minigame"].map String.toList

/-- The cube lists. -/
def cubes : List Text :=
  ["arena", "grixis", "legacy", "chuck", "twisted", "protour", "uncommon", "april", "modern",
   "amaz", "tinkerer", "livethedream", "chromatic", "vintage"].map String.toList

/-- What results can be unique by. -/
def uniques : List Text :=
  ["cards", "prints", "art"].map String.toList

/-- What results can be sorted by. -/
def orders : List Text :=
  ["name", "set", "released", "rarity", "color", "usd", "tix", "eur", "cmc", "power",
   "toughness", "edhrec", "penny", "artist", "review"].map String.toList

/-- The directions of sorting. -/
def directions : List Text :=
  ["auto", "asc", "desc"].map String.toList

/-- The supertypes. -/
def supertypes : List Text :=
  ["basic", "legendary", "snow", "world", "ongoing"].map String.toList

/-- The card types. -/
def cardTypes : List Text :=
  ["artifact", "battle", "creature", "enchantment", "instant", "land", "planeswalker",
   "sorcery", "kindred", "conspiracy", "dungeon", "phenomenon", "plane", "scheme",
   "vanguard"].map String.toList

end CardQuery.Vocabulary
