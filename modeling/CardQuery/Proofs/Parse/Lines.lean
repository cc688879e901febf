import CardQuery.Proofs.Parse.HeaderCut

/-!
# Texts laid out in lines

In a row where every comparison has its value right after it there is no header. So when such rows
stand behind headers, each on a line of its own, the text is cut again just where it was put
together.

Main statement: `cutAtHeaders_append_sections`.
-/

set_option autoImplicit false

namespace CardQuery

/-- What is known at a token once the tokens before it have been passed: whether it is the first,
and whether a line starts there. -/
def lineAfter (first atLine : Bool) : List Token → Bool × Bool
  | [] => (first, atLine)
  | t :: ts => lineAfter false (startsLine first t) ts

theorem lineAfter_concat (first atLine : Bool) (ts : List Token) {b : Token}
    (hb : b.kind = .blank) (hline : '\n' ∈ b.text) :
    lineAfter first atLine (ts ++ [b]) = (false, true) := by
  induction ts generalizing first atLine with
  | nil =>
      have hstarts : startsLine first b = true := by
        simp [startsLine, Token.isBlank, hb, hline]
      simp [lineAfter, hstarts]
  | cons t ts ih => exact ih false (startsLine first t)

/-- A token is no header when its comparison holds a value. -/
theorem isHeader_append_of_held {t : Token} {ts rest : List Token} (h : Held (t :: ts))
    (hrest : Settled rest) : isHeader t (ts ++ rest) = false := by
  rw [Bool.eq_false_iff]
  intro hheader
  simp only [isHeader, Bool.and_eq_true, decide_eq_true_eq] at hheader
  obtain ⟨⟨⟨-, hcolon⟩, hend⟩, -⟩ := hheader
  cases ts with
  | nil =>
      cases rest with
      | nil => cases hcolon
      | cons c rest =>
          have hc : c.kind.isComparison = false := hrest c rfl
          have hk : c.kind = .comparison .colon := by simpa using hcolon
          rw [hk] at hc
          cases hc
  | cons c ts =>
      have hk : c.kind = .comparison .colon := by simpa using hcolon
      obtain ⟨u, us, rfl, hu⟩ := h.2.1 (by rw [hk]; rfl)
      have hblank : u.kind = .blank := by simpa [Token.isBlank] using hend
      exact hu hblank

/-- A row whose comparisons hold their values is passed as it is. -/
theorem cutFrom_append {ts rest : List Token} (h : Held ts) (hrest : Settled rest)
    (first atLine : Bool) :
    cutFrom first atLine (ts ++ rest)
      = (ts ++ (cutFrom (lineAfter first atLine ts).1 (lineAfter first atLine ts).2 rest).1,
          (cutFrom (lineAfter first atLine ts).1 (lineAfter first atLine ts).2 rest).2) := by
  induction ts generalizing first atLine with
  | nil => rfl
  | cons t ts ih =>
      have hheader := isHeader_append_of_held h hrest
      rw [List.cons_append, cutFrom, ih h.2, hheader, lineAfter]
      split
      · next hcut =>
          simp only [Prod.mk.injEq] at hcut
          rw [List.cons_append, hcut.1, hcut.2]
      · next hcut =>
          simp only [Prod.mk.injEq] at hcut
          simp [hcut.1, hcut.2]

/-- Such a row is not cut at all. -/
theorem cutAtHeaders_of_held {ts : List Token} (h : Held ts) : cutAtHeaders ts = (ts, []) := by
  have hnil : Settled [] := by simp [Settled]
  have hcut := cutFrom_append h hnil true true
  simpa [cutAtHeaders, cutFrom] using hcut

/-- A header at the start of a line begins a section. -/
theorem cutFrom_header {name colon : Token} {ts : List Token}
    (h : isHeader name (colon :: ts) = true) (first : Bool) :
    cutFrom first true (name :: colon :: ts)
      = ([], ⟨name, colon, (cutFrom false false ts).1⟩ :: (cutFrom false false ts).2) := by
  simp only [isHeader, List.head?_cons, Option.any_some, Bool.and_eq_true, decide_eq_true_eq] at h
  obtain ⟨⟨⟨hname, hcolon⟩, hend⟩, halias⟩ := h
  -- neither the name nor the colon begins a line, so no header stands right behind this one
  have hfirst : startsLine first name = false := by simp [startsLine, Token.isBlank, hname]
  have hsecond : startsLine false colon = false := by simp [startsLine, Token.isBlank, hcolon]
  have hheader : isHeader name (colon :: ts) = true := by
    simp_all [isHeader]
  have hnext : isHeader colon ts = false := by simp [isHeader, hcolon]
  rcases hcut : cutFrom false false ts with ⟨run, sections⟩
  cases run <;> simp [cutFrom, hfirst, hsecond, hcut, hheader, hnext]

/-- Whether each section stands on a line of its own and has no header in its body. -/
def LaidOut : List Section → Prop
  | [] => True
  | s :: rest =>
    (s.name.kind = .word ∧ isArgument s.name.text = false) ∧ s.colon.kind = .comparison .colon ∧
      Held s.body ∧ (∀ b ∈ s.body.head?, b.kind = .blank) ∧
      (rest ≠ [] → ∃ body b, s.body = body ++ [b] ∧ b.kind = .blank ∧ '\n' ∈ b.text) ∧ LaidOut rest

theorem LaidOut.settled {sections : List Section} (h : LaidOut sections) :
    Settled (sections.flatMap Section.tokens) := by
  cases sections with
  | nil => simp [Settled]
  | cons s rest => exact settled_cons (by rw [h.1.1]; rfl) _

theorem cutFrom_sections {sections : List Section} (h : LaidOut sections) (first : Bool) :
    cutFrom first true (sections.flatMap Section.tokens) = ([], sections) := by
  induction sections generalizing first with
  | nil => rfl
  | cons s rest ih =>
      obtain ⟨⟨hname, halias⟩, hcolon, hheld, hfirst, hlast, hrest⟩ := h
      have hheader :
          isHeader s.name (s.colon :: (s.body ++ rest.flatMap Section.tokens)) = true := by
        have hend : (s.body ++ rest.flatMap Section.tokens).head?.all Token.isBlank = true := by
          cases hbody : s.body with
          | nil =>
              have hnil : rest = [] := by
                by_contra hne
                obtain ⟨body, b, hconcat, -⟩ := hlast hne
                simp [hbody] at hconcat
              simp [hnil]
          | cons b body => simpa [Token.isBlank] using hfirst b (by simp [hbody])
        simpa [isHeader, hname, hcolon, halias] using hend
      have hbody :
          cutFrom false false (s.body ++ rest.flatMap Section.tokens) = (s.body, rest) := by
        rw [cutFrom_append hheld hrest.settled]
        by_cases hnil : rest = []
        · simp [hnil, cutFrom]
        · obtain ⟨body, b, hconcat, hb, hline⟩ := hlast hnil
          rw [hconcat, lineAfter_concat false false body hb hline, ih hrest]
          simp
      show cutFrom first true (s.name :: s.colon :: (s.body ++ rest.flatMap Section.tokens)) = _
      rw [cutFrom_header hheader, hbody]

/-- **A text that was put together line by line is cut into its lines.** -/
theorem cutAtHeaders_append_sections {run : List Token} {sections : List Section}
    (hrun : Held run)
    (hline : run = [] ∨ ∃ ts b, run = ts ++ [b] ∧ b.kind = .blank ∧ '\n' ∈ b.text)
    (h : LaidOut sections) :
    cutAtHeaders (run ++ sections.flatMap Section.tokens) = (run, sections) := by
  rw [cutAtHeaders, cutFrom_append hrun h.settled]
  rcases hline with rfl | ⟨ts, b, rfl, hb, hline⟩
  · simp [lineAfter, cutFrom_sections h]
  · simp [lineAfter_concat true true ts hb hline, cutFrom_sections h]

/-- The name of a section is a word of the text, and no argument. -/
theorem name_of_mem_cutFrom {first atLine : Bool} {ts : List Token} {s : Section}
    (h : s ∈ (cutFrom first atLine ts).2) :
    s.name ∈ ts ∧ s.name.kind = .word ∧ isArgument s.name.text = false := by
  induction ts generalizing first atLine with
  | nil => cases h
  | cons t ts ih =>
      rcases hcut : cutFrom false (startsLine first t) ts with ⟨run, sections⟩
      have hlater : s ∈ sections →
          s.name ∈ t :: ts ∧ s.name.kind = .word ∧ isArgument s.name.text = false := by
        intro hs
        have hlater : s ∈ (cutFrom false (startsLine first t) ts).2 := by rwa [hcut]
        obtain ⟨hmem, hname⟩ := ih hlater
        exact ⟨List.mem_cons_of_mem t hmem, hname⟩
      cases run with
      | nil => exact hlater (by simpa [cutFrom, hcut] using h)
      | cons colon body =>
          by_cases hheader : (atLine && isHeader t ts) = true
          · rw [cutFrom, hcut] at h
            simp only [hheader, if_true, List.mem_cons] at h
            rcases h with rfl | h
            · simp only [isHeader, Bool.and_eq_true, decide_eq_true_eq,
                Bool.not_eq_true'] at hheader
              exact ⟨List.mem_cons_self, hheader.2.1.1.1, hheader.2.2⟩
            · exact hlater h
          · exact hlater (by simpa [cutFrom, hcut, hheader] using h)

end CardQuery
