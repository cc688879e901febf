import CardQuery.Editor.Completion
import CardQuery.Editor.Diagnostic
import CardQuery.Editor.Fold
import CardQuery.Editor.Highlight
import CardQuery.Editor.Indent
import CardQuery.Editor.Tooltip
import CardQuery.Parse.Program

/-!
# Editing sessions

A session is the text being edited with its tree and its lines, the catalog that completion draws
on, and the settings of the editor. The tree and the lines are made anew whenever the text changes
and serve every request until then.
-/

set_option autoImplicit false

namespace CardQuery

/-- The state of an editor. -/
structure Session where
  text : Text
  tree : Tree
  lines : LineIndex
  catalog : Catalog
  settings : EditorSettings

namespace Session

/-- A session with an empty text. -/
def start (catalog : Catalog) : Session :=
  ⟨[], parse [], .ofText [], catalog, .initial⟩

/-- The session with another text. -/
def setText (s : Session) (t : Text) : Session :=
  { s with text := t, tree := parse t, lines := .ofText t }

/-- The session with another catalog. -/
def setCatalog (s : Session) (catalog : Catalog) : Session :=
  { s with catalog := catalog }

/-- The session with other settings. -/
def setSettings (s : Session) (settings : EditorSettings) : Session :=
  { s with settings := settings }

/-- The text with the bytes from `start` to `stop` replaced. Offsets past the end mean the end.
Nothing is replaced when one of them is inside a character. -/
def spliced? (t : Text) (start stop : Nat) (replacement : Text) : Option Text := do
  let (before, _) ← t.splitAtWidth? (min start t.width)
  let (_, after) ← t.splitAtWidth? (min stop t.width)
  return before ++ replacement ++ after

/-- The session after an edit, or nothing when the edit is refused. -/
def edit? (s : Session) (start stop : Nat) (replacement : Text) : Option Session :=
  (spliced? s.text start stop replacement).map s.setText

/-- The suggestions at an offset. -/
def completionsAt? (s : Session) (offset : Nat) : Option CompletionResult :=
  s.tree.completionsAt? s.catalog s.settings offset

/-- The tooltip at an offset, with the line and column of its anchor. -/
def tooltipAt? (s : Session) (offset : Nat) : Option (Tooltip × Position) :=
  (s.tree.tooltipAt? offset).map fun tip => (tip, s.lines.position tip.anchor)

/-- The folds of the text. -/
def folds (s : Session) : List Fold :=
  s.tree.folds s.lines

end Session

end CardQuery
