import CardQuery.Editor.Session
import CardQuery.Expr.Document
import CardQuery.Query.Document

/-!
# Sessions have no history

A session keeps its tree and its lines from one request to the next, and only a change of the text
makes them anew. What is kept is always what the text would give again (`Session.Current`), so a
session that was edited in any way is the session that a fresh one becomes when it is given the
last text, catalog and settings.

Main statement: both answer every request alike, and an edit replaces just the bytes that it names
or nothing at all (`Session.forgets_history`).
-/

set_option autoImplicit false

namespace CardQuery

/-! ## Cutting at byte positions -/

namespace Text

/-- Whether byte `n` of a text does not stand inside a character or past the end. -/
def IsBoundary (t : Text) (n : Nat) : Prop :=
  ∃ before after : Text, t = before ++ after ∧ before.width = n

theorem isSome_splitAtWidth?_iff (t : Text) (n : Nat) :
    (splitAtWidth? n t).isSome ↔ t.IsBoundary n := by
  constructor
  · intro h
    obtain ⟨⟨before, after⟩, hsplit⟩ := Option.isSome_iff_exists.1 h
    obtain ⟨happend, hwidth⟩ := splitAtWidth?_eq_some hsplit
    exact ⟨before, after, happend.symm, hwidth⟩
  · rintro ⟨before, after, rfl, rfl⟩
    simp [splitAtWidth?_append]

end Text

namespace Session

/-! ## What can be done to a session -/

/-- A change of a session. -/
inductive Command
  | setText (t : Text)
  | edit (start stop : Nat) (replacement : Text)
  | setCatalog (catalog : Catalog)
  | setSettings (settings : EditorSettings)

/-- The session after a command. An edit that is refused leaves it as it was. -/
def perform (s : Session) : Command → Session
  | .setText t => s.setText t
  | .edit start stop replacement => (s.edit? start stop replacement).getD s
  | .setCatalog catalog => s.setCatalog catalog
  | .setSettings settings => s.setSettings settings

/-- The session after several commands. -/
def run (s : Session) (commands : List Command) : Session :=
  commands.foldl perform s

/-- A session that is given its text, catalog and settings once. -/
def fresh (t : Text) (catalog : Catalog) (settings : EditorSettings) : Session :=
  ((start catalog).setSettings settings).setText t

/-! ## What a session is asked -/

/-- A request to a session, at a byte offset or for the whole text. -/
inductive Request
  | text
  | tree
  | errors
  | lines
  | queries
  | document
  | highlights
  | folds
  | diagnostics
  | tag (offset : Nat)
  | constraints (offset : Nat)
  | completions (offset : Nat)
  | tooltip (offset : Nat)
  | indentation (offset : Nat)

/-- What a request is answered with. -/
def Request.Answer : Request → Type
  | .text => Text
  | .tree => Tree
  | .errors => List SyntaxError
  | .lines => LineIndex
  | .queries => QueryDocument
  | .document => Document
  | .highlights => List Highlight
  | .folds => List Fold
  | .diagnostics => List Diagnostic
  | .tag _ => Option TagAtCursor
  | .constraints _ => ConstraintContext
  | .completions _ => Option CompletionResult
  | .tooltip _ => Option (Tooltip × Position)
  | .indentation _ => Nat × Text

/-- The answer to a request. None of them reads the text again: they use the tree and the lines
that the session keeps. -/
def answer (s : Session) : (r : Request) → r.Answer
  | .text => s.text
  | .tree => s.tree
  | .errors => syntaxErrors s.tree
  | .lines => s.lines
  | .queries => .ofTree s.tree
  | .document => .ofTree s.tree
  | .highlights => s.tree.highlights
  | .folds => s.folds
  | .diagnostics => s.tree.diagnostics
  | .tag offset => s.tree.tagAt? offset
  | .constraints offset => s.tree.constraintsAt offset
  | .completions offset => s.completionsAt? offset
  | .tooltip offset => s.tooltipAt? offset
  | .indentation offset => (s.tree.indentLevel offset, s.tree.indentation offset)

/-! ## What commands leave behind, each by itself -/

/-- The text after a command, which may look at the text before and at nothing else. -/
def Command.textAfter (t : Text) : Command → Text
  | .setText t' => t'
  | .edit start stop replacement => (spliced? t start stop replacement).getD t
  | .setCatalog _ | .setSettings _ => t

/-- The catalog that a command sets. -/
def Command.catalog? : Command → Option Catalog
  | .setCatalog catalog => some catalog
  | _ => none

/-- The settings that a command sets. -/
def Command.settings? : Command → Option EditorSettings
  | .setSettings settings => some settings
  | _ => none

/-- The text after several commands. -/
def lastText (t : Text) (commands : List Command) : Text :=
  commands.foldl Command.textAfter t

/-- What the last of several commands sets that sets anything. -/
def lastSet {α : Type} (sets? : Command → Option α) (initial : α) (commands : List Command) : α :=
  (commands.filterMap sets?).getLastD initial

theorem lastSet_cons {α : Type} (sets? : Command → Option α) (initial : α) (c : Command)
    (commands : List Command) :
    lastSet sets? initial (c :: commands) = lastSet sets? ((sets? c).getD initial) commands := by
  rw [lastSet, List.filterMap_cons]
  cases sets? c with
  | none => rfl
  | some value => exact List.getLastD_cons

/-! ## What is kept is up to date -/

/-- Whether the tree and the lines of a session are those of its text. -/
structure Current (s : Session) : Prop where
  tree : s.tree = parse s.text
  lines : s.lines = .ofText s.text

variable {s : Session}

theorem current_start (catalog : Catalog) : (start catalog).Current :=
  ⟨rfl, rfl⟩

theorem current_setText (s : Session) (t : Text) : (s.setText t).Current :=
  ⟨rfl, rfl⟩

/-- A session that is up to date is a fresh one. -/
theorem Current.eq_fresh (h : s.Current) : s = fresh s.text s.catalog s.settings := by
  obtain ⟨text, tree, lines, catalog, settings⟩ := s
  obtain ⟨rfl, rfl⟩ : tree = parse text ∧ lines = .ofText text := ⟨h.tree, h.lines⟩
  rfl

theorem Current.perform (h : s.Current) (c : Command) : (s.perform c).Current := by
  cases c with
  | setText t => exact current_setText s t
  | edit start stop replacement =>
      cases hspliced : spliced? s.text start stop replacement with
      | none => simpa [Session.perform, edit?, hspliced] using h
      | some t => simpa [Session.perform, edit?, hspliced] using current_setText s t
  | setCatalog catalog => exact ⟨h.tree, h.lines⟩
  | setSettings settings => exact ⟨h.tree, h.lines⟩

theorem Current.run (h : s.Current) (commands : List Command) : (s.run commands).Current := by
  induction commands generalizing s with
  | nil => exact h
  | cons c commands ih => exact ih (h.perform c)

/-! ## What a run leaves behind -/

theorem text_perform (s : Session) (c : Command) : (s.perform c).text = c.textAfter s.text := by
  cases c with
  | edit start stop replacement =>
      cases hspliced : spliced? s.text start stop replacement <;>
        simp [perform, edit?, Command.textAfter, hspliced, setText]
  | _ => rfl

theorem catalog_perform (s : Session) (c : Command) :
    (s.perform c).catalog = c.catalog?.getD s.catalog := by
  cases c with
  | edit start stop replacement =>
      cases hspliced : spliced? s.text start stop replacement <;>
        simp [perform, edit?, Command.catalog?, hspliced, setText]
  | _ => rfl

theorem settings_perform (s : Session) (c : Command) :
    (s.perform c).settings = c.settings?.getD s.settings := by
  cases c with
  | edit start stop replacement =>
      cases hspliced : spliced? s.text start stop replacement <;>
        simp [perform, edit?, Command.settings?, hspliced, setText]
  | _ => rfl

theorem text_run (s : Session) (commands : List Command) :
    (s.run commands).text = lastText s.text commands := by
  induction commands generalizing s with
  | nil => rfl
  | cons c commands ih => exact (ih _).trans (by rw [text_perform]; rfl)

/-- A part of a session that commands set as a whole is what was set last. -/
theorem part_run {α : Type} {part : Session → α} {sets? : Command → Option α}
    (h : ∀ s c, part (perform s c) = (sets? c).getD (part s)) (s : Session)
    (commands : List Command) : part (s.run commands) = lastSet sets? (part s) commands := by
  induction commands generalizing s with
  | nil => rfl
  | cons c commands ih =>
      rw [lastSet_cons, ← h]
      exact ih (s.perform c)

/-- **A session is what its last text, catalog and settings make of a fresh one.** -/
theorem run_start (catalog : Catalog) (commands : List Command) :
    (start catalog).run commands
      = fresh (lastText [] commands) (lastSet Command.catalog? catalog commands)
          (lastSet Command.settings? .initial commands) := by
  have h := ((current_start catalog).run commands).eq_fresh
  rwa [text_run, part_run catalog_perform, part_run settings_perform] at h

/-! ## Edits -/

theorem isSome_edit?_iff (s : Session) (start stop : Nat) (replacement : Text) :
    (s.edit? start stop replacement).isSome ↔
      s.text.IsBoundary (min start s.text.width) ∧
        s.text.IsBoundary (min stop s.text.width) := by
  rw [← Text.isSome_splitAtWidth?_iff, ← Text.isSome_splitAtWidth?_iff, edit?, spliced?]
  cases s.text.splitAtWidth? (min start s.text.width) <;>
    cases s.text.splitAtWidth? (min stop s.text.width) <;> simp

/-- An accepted edit keeps the text before what it replaces and the text behind it. -/
theorem text_of_edit? {s s' : Session} {start stop : Nat} {replacement : Text}
    (h : s.edit? start stop replacement = some s') :
    ∃ before rest skipped after : Text, s.text = before ++ rest ∧ s.text = skipped ++ after ∧
      before.width = min start s.text.width ∧ skipped.width = min stop s.text.width ∧
      s'.text = before ++ replacement ++ after := by
  obtain ⟨t, hspliced, rfl⟩ := Option.map_eq_some_iff.1 h
  simp only [spliced?, Option.bind_eq_bind, Option.bind_eq_some_iff] at hspliced
  obtain ⟨⟨before, rest⟩, hbefore, ⟨skipped, after⟩, hafter, htext⟩ := hspliced
  obtain ⟨hb, hbw⟩ := Text.splitAtWidth?_eq_some hbefore
  obtain ⟨ha, haw⟩ := Text.splitAtWidth?_eq_some hafter
  exact ⟨before, rest, skipped, after, hb.symm, ha.symm, hbw, haw, (Option.some.inj htext).symm⟩

/-- **A session has no history.** After any commands its text, catalog and settings are the last
ones, its tree and lines are those of its text, and it answers every request as a fresh session with
the last text, catalog and settings does. An edit is accepted just when both of its ends, cut to the
end of the text, are character boundaries; then it replaces what is between them, and otherwise the
session stays as it was. -/
theorem forgets_history (catalog : Catalog) (commands : List Command) {s : Session}
    (h : s = (start catalog).run commands) :
    (s.Current ∧ s.text = lastText [] commands ∧
      s.catalog = lastSet Command.catalog? catalog commands ∧
      s.settings = lastSet Command.settings? .initial commands) ∧
    (∀ r : Request, s.answer r
      = (fresh (lastText [] commands) (lastSet Command.catalog? catalog commands)
          (lastSet Command.settings? .initial commands)).answer r) ∧
    ∀ (start stop : Nat) (replacement : Text),
      ((s.edit? start stop replacement).isSome ↔
        s.text.IsBoundary (min start s.text.width) ∧
          s.text.IsBoundary (min stop s.text.width)) ∧
      (∀ s', s.edit? start stop replacement = some s' →
        s.perform (.edit start stop replacement) = s' ∧
        ∃ before rest skipped after : Text, s.text = before ++ rest ∧ s.text = skipped ++ after ∧
          before.width = min start s.text.width ∧ skipped.width = min stop s.text.width ∧
          s'.text = before ++ replacement ++ after) ∧
      (s.edit? start stop replacement = none →
        s.perform (.edit start stop replacement) = s) := by
  refine ⟨?_, fun r => by rw [h, run_start],
    fun start stop replacement => ⟨?_, fun s' hs' => ?_, ?_⟩⟩
  · rw [h]
    exact ⟨(current_start catalog).run commands, text_run _ _, part_run catalog_perform _ _,
      part_run settings_perform _ _⟩
  · exact isSome_edit?_iff s start stop replacement
  · exact ⟨by rw [perform, hs', Option.getD_some], text_of_edit? hs'⟩
  · intro hs'
    rw [perform, hs', Option.getD_none]

/-- A session in which one edit was refused, because it would have split a character, and another
was cut to the end of the text. -/
def editedSample : List Command :=
  [.setText ['a', ':', 'é'], .edit 3 4 ['e'], .setSettings ⟨false, true⟩, .edit 9 12 [' ', 'b']]

theorem forgets_history_edited :
    ((start .initial).run editedSample).tree = parse ['a', ':', 'é', ' ', 'b'] ∧
    (∀ r : Request, ((start .initial).run editedSample).answer r
      = (fresh ['a', ':', 'é', ' ', 'b'] .initial ⟨false, true⟩).answer r) ∧
      ((start .initial).run editedSample).perform (.edit 3 4 ['e'])
        = (start .initial).run editedSample :=
  have h := forgets_history .initial editedSample rfl
  ⟨h.1.1.tree, h.2.1, (h.2.2 3 4 ['e']).2.2 rfl⟩

end Session

end CardQuery
