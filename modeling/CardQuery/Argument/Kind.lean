import CardQuery.Token.Basic

/-!
# Arguments

What the argument of a tag can ask about a card: the kinds of argument, the comparisons each kind
accepts, and the three kinds that configure a query instead of filtering cards.
-/

set_option autoImplicit false

namespace CardQuery

/-- What an argument asks about. -/
inductive ArgumentKind
  | oracle | type | set | product | is | power | toughness | powtou | loyalty | mana | name
  | color | keyword | cmc | rarity | cube | format | artist | number | flavor | watermark
  | border | frame | stamp | date | atag | otag | game | uuid | unique | order | dir
  deriving DecidableEq, Repr

/-- The settings of a query. -/
inductive SettingKey
  | order
  | dir
  | unique
  deriving DecidableEq, Repr

/-- Which comparisons an argument accepts: an `assign` argument sets something and an `assert`
argument tests for something, both by `:` or `=`; the `all` arguments compare. -/
inductive ComparisonClass
  | assign
  | assert
  | all
  deriving DecidableEq, Repr

/-- The name of a setting, which is also an alias of the argument that sets it. -/
def SettingKey.name : SettingKey → String
  | .order => "order"
  | .dir => "dir"
  | .unique => "unique"

/-- The spelling of a comparison. -/
def Comparison.spelling : Comparison → String
  | .colon => ":"
  | .equal => "="
  | .notEqual => "!="
  | .less => "<"
  | .greater => ">"
  | .lessEqual => "<="
  | .greaterEqual => ">="

namespace ComparisonClass

/-- The name of a class. -/
def name : ComparisonClass → String
  | .assign => "assign"
  | .assert => "assert"
  | .all => "all"

/-- The comparisons of a class, the most common first. -/
def comparisons : ComparisonClass → List Comparison
  | .assign | .assert => [.colon, .equal]
  | .all => [.colon, .equal, .notEqual, .less, .greater, .lessEqual, .greaterEqual]

/-- Whether a token of this kind is a comparison of the class. -/
def allows (c : ComparisonClass) (k : TokenKind) : Bool :=
  match c, k with
  | .all, .comparison _ => true
  | .assign, .comparison op | .assert, .comparison op => op = .colon ∨ op = .equal
  | _, _ => false

/-- A class allows just the comparisons it lists. -/
theorem allows_comparison_iff (c : ComparisonClass) (op : Comparison) :
    c.allows (.comparison op) = true ↔ op ∈ c.comparisons := by
  cases c <;> cases op <;> decide

end ComparisonClass

namespace ArgumentKind

/-- Every kind, in the order of the type. -/
def every : List ArgumentKind :=
  [.oracle, .type, .set, .product, .is, .power, .toughness, .powtou, .loyalty, .mana, .name,
   .color, .keyword, .cmc, .rarity, .cube, .format, .artist, .number, .flavor, .watermark,
   .border, .frame, .stamp, .date, .atag, .otag, .game, .uuid, .unique, .order, .dir]

/-- The display name of a kind. -/
def title : ArgumentKind → String
  | .oracle => "oracle"
  | .type => "type"
  | .set => "set"
  | .product => "product"
  | .is => "is"
  | .power => "power"
  | .toughness => "toughness"
  | .powtou => "powtou"
  | .loyalty => "loyalty"
  | .mana => "mana"
  | .name => "name"
  | .color => "color"
  | .keyword => "keyword"
  | .cmc => "cmc"
  | .rarity => "rarity"
  | .cube => "cube"
  | .format => "format"
  | .artist => "artist"
  | .number => "number"
  | .flavor => "flavor"
  | .watermark => "watermark"
  | .border => "border"
  | .frame => "frame"
  | .stamp => "stamp"
  | .date => "date"
  | .atag => "atag"
  | .otag => "otag"
  | .game => "game"
  | .uuid => "uuid"
  | .unique => "unique"
  | .order => "order"
  | .dir => "dir"

/-- The comparisons a kind accepts. -/
def comparisonClass : ArgumentKind → ComparisonClass
  | .unique | .order | .dir => .assign
  | .power | .toughness | .powtou | .loyalty | .mana | .color | .cmc | .rarity | .number
  | .date => .all
  | _ => .assert

/-- The setting that a kind configures, for the three kinds that configure one. -/
def setting? : ArgumentKind → Option SettingKey
  | .unique => some .unique
  | .order => some .order
  | .dir => some .dir
  | _ => none

end ArgumentKind

end CardQuery
