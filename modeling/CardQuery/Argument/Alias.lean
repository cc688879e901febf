import CardQuery.Argument.Kind

/-!
# Aliases

The spellings of the arguments. An `AliasGroup` is a set of spellings that mean the same and share
one help text; several groups can be of one kind. A spelling is found in any letter case, and no
spelling is in two groups.
-/

set_option autoImplicit false

namespace CardQuery

/-- Spellings that share one meaning and one help text. The first is the canonical one. -/
structure AliasGroup where
  aliases : List Text
  kind : ArgumentKind
  detail : Text
  info : Text
  deriving DecidableEq, Repr

namespace AliasGroup

/-- The group with these spellings, this kind, and this short and long help text. -/
def ofStrings (aliases : List String) (kind : ArgumentKind) (detail info : String) :
    AliasGroup :=
  ⟨aliases.map String.toList, kind, detail.toList, info.toList⟩

/-- Every group. -/
def table : List AliasGroup :=
  [ofStrings ["o", "oracle"] .oracle "Oracle text"
    ("Cards whose rules text contains the words. Use quotes for phrases and ~ for the card's "
      ++ "own name."),
   ofStrings ["fo"] .oracle "Full oracle text"
    "Like o: but also matches reminder text.",
   ofStrings ["t", "type"] .type "Type line"
    "Cards with the word anywhere in their type line: card types, subtypes and supertypes.",
   ofStrings ["s", "set", "e", "edition"] .set "Set"
    "Cards printed in the set with this three to five letter code.",
   ofStrings ["b", "block"] .set "Block"
    "Cards printed in any set of the block with this code.",
   ofStrings ["in"] .set "Printed in"
    ("Cards that have ever been printed in the set, game or language, regardless of the print "
      ++ "shown."),
   ofStrings ["st", "product"] .product "Set type"
    "Cards from sets of this product type, such as core, expansion, masters or commander.",
   ofStrings ["is"] .is "Card property"
    "Cards with a property such as split, transform, spell, permanent, reprint or reserved.",
   ofStrings ["not"] .is "Missing property"
    "Cards without the property. Equivalent to -is:.",
   ofStrings ["has"] .is "Card feature"
    "Cards that have a feature such as a watermark or an indicator.",
   ofStrings ["pow", "power"] .power "Power"
    "Compare a creature's power with a number or with tou.",
   ofStrings ["tou", "toughness"] .toughness "Toughness"
    "Compare a creature's toughness with a number or with pow.",
   ofStrings ["pt", "powtou"] .powtou "Total power and toughness"
    "Compare the sum of power and toughness with a number.",
   ofStrings ["loy", "loyalty"] .loyalty "Starting loyalty"
    "Compare a planeswalker's starting loyalty with a number.",
   ofStrings ["m", "mana"] .mana "Mana cost"
    ("Cards with these symbols in their mana cost, for example \x7bG\x7d\x7bU\x7d or 2WW. "
      ++ "Comparisons test for a subset or superset of the cost."),
   ofStrings ["produces"] .mana "Produces mana"
    "Cards that can produce mana of these colors.",
   ofStrings ["devotion"] .mana "Devotion"
    ("Compare the devotion a permanent contributes, written as repeated symbols such as "
      ++ "\x7bG\x7d\x7bG\x7d."),
   ofStrings ["name"] .name "Card name"
    "Cards whose name contains the words. A bare word or quoted phrase searches names too.",
   ofStrings ["c", "color"] .color "Color"
    ("Compare a card's colors, given as letters (wubrg), full names or guild and shard names. "
      ++ "c: means at least these colors."),
   ofStrings ["id", "identity", "ci"] .color "Color identity"
    "Compare a card's commander color identity. id: means at most these colors.",
   ofStrings ["kw", "keyword"] .keyword "Keyword"
    "Cards with the keyword ability or action, such as flying or scry.",
   ofStrings ["cmc", "mv", "manavalue"] .cmc "Mana value"
    "Compare a card's mana value with a number, or test is even or odd.",
   ofStrings ["r", "rarity"] .rarity "Rarity"
    "Compare rarity: common, uncommon, rare, special, mythic or bonus.",
   ofStrings ["cube"] .cube "Cube"
    "Cards in one of the well-known cube lists.",
   ofStrings ["f", "format", "legal"] .format "Legal in format"
    "Cards legal in the format.",
   ofStrings ["banned"] .format "Banned in format"
    "Cards banned in the format.",
   ofStrings ["restricted"] .format "Restricted in format"
    "Cards restricted in the format.",
   ofStrings ["a", "artist"] .artist "Artist"
    "Cards illustrated by an artist whose name contains the words.",
   ofStrings ["cn", "number"] .number "Collector number"
    "Compare a print's collector number with a number.",
   ofStrings ["ft", "flavor"] .flavor "Flavor text"
    "Cards whose flavor text contains the words.",
   ofStrings ["wm", "watermark"] .watermark "Watermark"
    "Cards with this watermark. Use has:watermark for any watermark.",
   ofStrings ["border"] .border "Border color"
    "Cards with this border: black, white, silver, gold or borderless.",
   ofStrings ["frame"] .frame "Frame"
    "Cards printed with this frame edition or frame effect.",
   ofStrings ["stamp"] .stamp "Security stamp"
    "Cards with this security stamp: oval, acorn, triangle or arena.",
   ofStrings ["date"] .date "Release date"
    "Compare the release date with a date in yyyy-mm-dd form or with a set code.",
   ofStrings ["year"] .date "Release year"
    "Compare the release year with a year.",
   ofStrings ["atag", "art", "arttag"] .atag "Art tag"
    "Cards whose illustration carries this community tag.",
   ofStrings ["otag", "function", "oracletag"] .otag "Oracle tag"
    "Cards whose gameplay function carries this community tag, such as removal or ramp.",
   ofStrings ["game"] .game "Game"
    "Cards available in this game: paper, mtgo or arena.",
   ofStrings ["oracleid", "uuid"] .uuid "Oracle id"
    "The card with this oracle UUID.",
   ofStrings ["unique"] .unique "Uniqueness"
    "Setting. Show one result per card, per print or per artwork.",
   ofStrings ["order"] .order "Sort order"
    "Setting. Field the results are sorted by.",
   ofStrings ["dir", "direction"] .dir "Sort direction"
    "Setting. Sort results ascending or descending."]

end AliasGroup

/-- The group of a spelling, in any letter case. -/
def aliasGroup? (name : Text) : Option AliasGroup :=
  AliasGroup.table.find? fun g => g.aliases.contains name.asciiLower

/-- Whether a text spells an argument. -/
def isArgument (name : Text) : Bool :=
  (aliasGroup? name).isSome

/-- The kind of argument that a text spells. -/
def argumentKind? (name : Text) : Option ArgumentKind :=
  (aliasGroup? name).map AliasGroup.kind

/-- The setting that a text spells. -/
def setting? (name : Text) : Option SettingKey :=
  (argumentKind? name).bind ArgumentKind.setting?

/-- Every spelling, in the order of the table. -/
def everyAlias : List Text :=
  AliasGroup.table.flatMap AliasGroup.aliases

/-- The canonical spelling of each group, with the group. -/
def canonicalAliases : List (Text × AliasGroup) :=
  AliasGroup.table.filterMap fun g => g.aliases.head?.map fun name => (name, g)

/-- The letter case of a spelling does not matter. -/
theorem aliasGroup?_congr {a b : Text} (h : a.asciiLower = b.asciiLower) :
    aliasGroup? a = aliasGroup? b := by
  simp only [aliasGroup?, h]

end CardQuery
