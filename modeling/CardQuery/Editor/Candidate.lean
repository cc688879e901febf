import CardQuery.Argument.Kind
import CardQuery.Catalog.Basic
import CardQuery.Editor.Settings

/-!
# Candidate values

The values that a catalog knows for each kind of argument. Kinds that take free text, numbers,
mana symbols, dates or ids have no candidates at all, which is not the same as an empty list.
-/

set_option autoImplicit false

namespace CardQuery

/-- A value that could complete a tag, with the texts that describe it. -/
structure Candidate where
  label : Text
  detail : Option Text
  info : Option Text
  displayLabel : Option Text
  /-- The group of values it comes from. -/
  group : Option Text
  deriving DecidableEq, Repr

namespace Candidate

/-- A candidate with a label alone. -/
def ofLabel (label : Text) : Candidate :=
  ⟨label, none, none, none, none⟩

/-- The values of a group, which also serves as their short description. -/
def ofGroup (settings : EditorSettings) (group : String) (values : List Text) : List Candidate :=
  values.map fun label =>
    { ofLabel label with
      group := some group.toList
      detail := if settings.autoDetail then some group.toList else none }

/-- The candidate for a card set: its code, described by its name and its release. -/
def ofSet (settings : EditorSettings) (s : SetInfo) : Candidate :=
  { ofLabel s.code with
    detail := if settings.autoDetail then some s.name else none
    info := if settings.autoInfo then s.released.map ("Released ".toList ++ ·) else none }

end Candidate

namespace Catalog

/-- The type words of a catalog by group, in the order they are offered. -/
def typeGroups (c : Catalog) : List (String × List Text) :=
  [("card types", c.cardTypes), ("creature types", c.creatureTypes),
   ("artifact types", c.artifactTypes), ("enchantment types", c.enchantmentTypes),
   ("land types", c.landTypes), ("planeswalker types", c.planeswalkerTypes),
   ("battle types", c.battleTypes), ("spell types", c.spellTypes), ("supertypes", c.supertypes)]

/-- The keywords of a catalog by group, in the order they are offered. -/
def keywordGroups (c : Catalog) : List (String × List Text) :=
  [("keyword abilities", c.keywordAbilities), ("keyword actions", c.keywordActions),
   ("ability words", c.abilityWords)]

/-- The candidates for a kind of argument. -/
def candidates? (c : Catalog) (settings : EditorSettings) : ArgumentKind → Option (List Candidate)
  | .oracle | .flavor | .number | .date | .uuid | .mana | .cmc | .powtou => none
  | .type => some (c.typeGroups.flatMap fun g => Candidate.ofGroup settings g.1 g.2)
  | .keyword => some (c.keywordGroups.flatMap fun g => Candidate.ofGroup settings g.1 g.2)
  | .set => some (c.sets.map (Candidate.ofSet settings))
  | .product => some (c.products.map .ofLabel)
  | .is => some (c.properties.map .ofLabel)
  | .power => some (c.powers.map .ofLabel)
  | .toughness => some (c.toughnesses.map .ofLabel)
  | .loyalty => some (c.loyalties.map .ofLabel)
  | .name => some (c.cardNames.map .ofLabel)
  | .color => some (c.colors.map .ofLabel)
  | .rarity => some (c.rarities.map .ofLabel)
  | .cube => some (c.cubes.map .ofLabel)
  | .format => some (c.formats.map .ofLabel)
  | .artist => some (c.artistNames.map .ofLabel)
  | .watermark => some (c.watermarks.map .ofLabel)
  | .border => some (c.borders.map .ofLabel)
  | .frame => some (c.frames.map .ofLabel)
  | .stamp => some (c.stamps.map .ofLabel)
  | .atag => some (c.atags.map .ofLabel)
  | .otag => some (c.otags.map .ofLabel)
  | .game => some (c.games.map .ofLabel)
  | .unique => some (c.uniques.map .ofLabel)
  | .order => some (c.orders.map .ofLabel)
  | .dir => some (c.directions.map .ofLabel)

end Catalog

end CardQuery
