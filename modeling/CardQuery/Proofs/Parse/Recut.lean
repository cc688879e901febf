import CardQuery.Proofs.Parse.HeaderCut

/-!
# Cutting a part again

Whether a header stands at a token is decided by the tokens around it, and where a text was cut
there is a blank in front of the header. So a part that was cut off holds no header that the text
did not have: what stood before the first header is not cut again, and a section is cut into just
itself.

Main statements: `cutAtHeaders_section`, `cutAtHeaders_domain`.
-/

set_option autoImplicit false

namespace CardQuery

/-- What stands before a header begins a line at its end. -/
theorem cutFrom_before_header {first atLine : Bool} {ts run : List Token} {s : Section}
    {sections : List Section} (h : cutFrom first atLine ts = (run, s :: sections)) :
    (run = [] ∧ atLine = true) ∨ ∃ before b, run = before ++ [b] ∧ b.isBlank = true := by
  induction ts generalizing first atLine run s sections with
  | nil => cases h
  | cons t ts ih =>
      rcases hcut : cutFrom false (startsLine first t) ts with ⟨later, rest⟩
      rw [cutFrom, hcut] at h
      cases later with
      | nil =>
          obtain ⟨rfl, rfl⟩ := Prod.mk.inj h
          -- the header is the next token, so this one begins its line
          rcases ih hcut with ⟨-, hline⟩ | ⟨before, b, hnil, -⟩
          · have hblank : t.isBlank = true := by
              rw [startsLine, Bool.and_eq_true] at hline
              exact hline.1
            exact Or.inr ⟨[], t, rfl, hblank⟩
          · simp at hnil
      | cons colon body =>
          simp only at h
          by_cases hheader : (atLine && isHeader t ts) = true
          · rw [if_pos hheader] at h
            exact Or.inl ⟨(Prod.mk.inj h).1.symm, (Bool.and_eq_true_iff.1 hheader).1⟩
          · rw [if_neg hheader] at h
            obtain ⟨rfl, rfl⟩ := Prod.mk.inj h
            rcases ih hcut with ⟨hnil, -⟩ | ⟨before, b, hlater, hb⟩
            · cases hnil
            · exact Or.inr ⟨t :: before, b, by rw [hlater, List.cons_append], hb⟩

/-- A token is a header in front of what follows it up to the next header just when it is one in
front of all that follows. -/
theorem isHeader_cut {t colon : Token} {ts body : List Token} {sections : List Section}
    {first atLine : Bool} (hcut : cutFrom first atLine ts = (colon :: body, sections)) :
    isHeader t (colon :: body) = true ↔ isHeader t ts = true := by
  have htokens := cutFrom_tokens first atLine ts
  rw [hcut] at htokens
  rw [← htokens]
  cases body with
  | cons b body => simp [isHeader]
  | nil =>
      cases sections with
      | nil => simp
      | cons s sections =>
          -- what stands before the next header is a blank, and so no colon
          have hcolon : colon.kind ≠ .comparison .colon := by
            intro hk
            rcases cutFrom_before_header hcut with ⟨hnil, -⟩ | ⟨before, b, hrun, hb⟩
            · cases hnil
            · obtain ⟨-, rfl⟩ : before = [] ∧ colon = b := by
                cases before <;> simp_all
              simp [Token.isBlank, hk] at hb
          simp [isHeader, hcolon]

/-- **What stands before the first header is not cut again.** -/
theorem cutFrom_run {first atLine : Bool} {ts run : List Token} {sections : List Section}
    (h : cutFrom first atLine ts = (run, sections)) : cutFrom first atLine run = (run, []) := by
  induction ts generalizing first atLine run sections with
  | nil =>
      obtain ⟨rfl, -⟩ := Prod.mk.inj h
      rfl
  | cons t ts ih =>
      rcases hcut : cutFrom false (startsLine first t) ts with ⟨later, rest⟩
      rw [cutFrom, hcut] at h
      cases later with
      | nil =>
          obtain ⟨rfl, -⟩ := Prod.mk.inj h
          rfl
      | cons colon body =>
          simp only at h
          by_cases hheader : (atLine && isHeader t ts) = true
          · rw [if_pos hheader] at h
            obtain ⟨rfl, -⟩ := Prod.mk.inj h
            rfl
          · have hstill : ¬ (atLine && isHeader t (colon :: body)) = true := by
              rw [Bool.and_eq_true] at hheader ⊢
              exact fun hboth => hheader ⟨hboth.1, (isHeader_cut hcut).1 hboth.2⟩
            rw [if_neg hheader] at h
            obtain ⟨rfl, -⟩ := Prod.mk.inj h
            rw [cutFrom, ih hcut]
            simp only
            rw [if_neg hstill]

/-- **A section is cut into just itself.** -/
theorem cutAtHeaders_section {first atLine : Bool} {ts : List Token} {s : Section}
    (h : s ∈ (cutFrom first atLine ts).2) : cutAtHeaders s.tokens = ([], [s]) := by
  induction ts generalizing first atLine with
  | nil => cases h
  | cons t ts ih =>
      rcases hcut : cutFrom false (startsLine first t) ts with ⟨later, rest⟩
      have hlater : s ∈ rest → cutAtHeaders s.tokens = ([], [s]) := fun hs => ih (by rwa [hcut])
      rw [cutFrom, hcut] at h
      cases later with
      | nil => exact hlater h
      | cons colon body =>
          simp only at h
          by_cases hheader : (atLine && isHeader t ts) = true
          · rw [if_pos hheader, List.mem_cons] at h
            rcases h with rfl | h
            · have hhead := (Bool.and_eq_true_iff.1 hheader).2
              have hname : ∀ first, startsLine first t = false := by
                have hword : t.kind = .word := by
                  simp only [isHeader, Bool.and_eq_true, decide_eq_true_eq] at hhead
                  exact hhead.1.1.1
                intro first
                simp [startsLine, Token.isBlank, hword]
              rw [hname first] at hcut
              have hrun : cutFrom false (startsLine true t) (colon :: body)
                  = (colon :: body, []) := by
                rw [hname true]
                exact cutFrom_run hcut
              have hstill : (true && isHeader t (colon :: body)) = true := by
                rw [Bool.true_and]
                exact (isHeader_cut hcut).2 hhead
              rw [cutAtHeaders, Section.tokens, cutFrom, hrun]
              simp only
              rw [if_pos hstill]
            · exact hlater h
          · rw [if_neg hheader] at h
            exact hlater h

/-- Where a line starts, it does not matter whether the text starts there too. -/
theorem cutFrom_first {t : Token} (ht : t.isBlank = false) (first atLine : Bool) (ts : List Token) :
    cutFrom first atLine (t :: ts) = cutFrom true atLine (t :: ts) := by
  simp [cutFrom, startsLine, ht]

/-- **What stands before the first header is not cut again, with or without the blanks at its
start.** -/
theorem cutAtHeaders_domain {ts run : List Token} {sections : List Section}
    (htouching : Touching ts) (h : cutAtHeaders ts = (run, sections)) :
    cutAtHeaders (run.dropWhile Token.isBlank) = (run.dropWhile Token.isBlank, []) := by
  have hrun : cutFrom true true run = (run, []) := cutFrom_run h
  have htokens := cutFrom_tokens true true ts
  rw [cutAtHeaders] at h
  rw [h] at htokens
  have hblanks : Touching run := htouching.of_part ⟨[], _, htokens⟩
  cases run with
  | nil => exact hrun
  | cons b rest =>
      by_cases hb : b.isBlank = true
      · rw [List.dropWhile_cons_of_pos hb]
        cases rest with
        | nil => rfl
        | cons t rest =>
            -- no two blanks touch, so the blank at the start is the only one there
            have ht : t.isBlank = false := by
              have hnext := (List.isChain_cons_cons.1 hblanks).1
              have hk : b.kind = .blank := by simpa [Token.isBlank] using hb
              simpa [hk, TokenKind.canPrecede, Token.isBlank] using hnext
            have hline : startsLine true b = true := by simp [startsLine, hb]
            have hhead : isHeader b (t :: rest) = false := by
              have hk : b.kind = .blank := by simpa [Token.isBlank] using hb
              simp [isHeader, hk]
            rw [List.dropWhile_cons_of_neg (by simp [ht]), cutAtHeaders,
              ← cutFrom_first ht false true]
            rcases hcut : cutFrom false true (t :: rest) with ⟨later, more⟩
            rw [cutFrom, hline, hcut, hhead] at hrun
            cases later with
            | nil => simp at hrun
            | cons u us => simpa using hrun
      · rw [List.dropWhile_cons_of_neg hb]
        exact hrun

end CardQuery
