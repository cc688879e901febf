/-!
# Editor settings

Which of the optional texts completion items carry.
-/

set_option autoImplicit false

namespace CardQuery

/-- The settings of an editor. -/
structure EditorSettings where
  /-- Whether items carry their short description. -/
  autoDetail : Bool
  /-- Whether items carry their long description. -/
  autoInfo : Bool
  deriving DecidableEq, Repr

/-- The settings when nothing else is said: items carry all their texts. -/
def EditorSettings.initial : EditorSettings :=
  ⟨true, true⟩

end CardQuery
