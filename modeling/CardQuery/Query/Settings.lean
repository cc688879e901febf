import CardQuery.Argument.Kind

/-!
# Query settings

How the cards that a query finds are sorted and grouped. A setting that is not given can be
inherited.
-/

set_option autoImplicit false

namespace CardQuery

/-- The settings of a query; one that is not given is `none`. -/
structure QuerySettings where
  order : Option Text
  dir : Option Text
  unique : Option Text
  deriving DecidableEq, Repr

namespace QuerySettings

/-- No settings. -/
def empty : QuerySettings :=
  ⟨none, none, none⟩

/-- The value of a setting. -/
def get (s : QuerySettings) : SettingKey → Option Text
  | .order => s.order
  | .dir => s.dir
  | .unique => s.unique

/-- The settings with one of them given. -/
def set (s : QuerySettings) (key : SettingKey) (value : Text) : QuerySettings :=
  match key with
  | .order => { s with order := some value }
  | .dir => { s with dir := some value }
  | .unique => { s with unique := some value }

/-- Whether no setting is given. -/
def isEmpty (s : QuerySettings) : Bool :=
  s.order.isNone && s.dir.isNone && s.unique.isNone

/-- The settings with what is not given taken from `parent`. -/
def inherit (s parent : QuerySettings) : QuerySettings :=
  ⟨s.order.or parent.order, s.dir.or parent.dir, s.unique.or parent.unique⟩

/-- The settings given by a list of them, of which the last for each key counts. -/
def ofList (given : List (SettingKey × Text)) : QuerySettings :=
  given.foldl (fun s (key, value) => s.set key value) empty

theorem get_set (s : QuerySettings) (key other : SettingKey) (value : Text) :
    (s.set key value).get other = if key = other then some value else s.get other := by
  cases key <;> cases other <;> rfl

theorem get_inherit (s parent : QuerySettings) (key : SettingKey) :
    (s.inherit parent).get key = (s.get key).or (parent.get key) := by
  cases key <;> rfl

end QuerySettings

end CardQuery
