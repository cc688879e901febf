import CardQuery.Proofs.Token.Literal
import CardQuery.Proofs.Token.Slice

/-!
# Where an open literal ends

A literal that nothing closes should run on to the end of the text. It is cut short where it cannot
be read on: a regular expression at a newline, and a literal of either kind before a backslash that
escapes nothing. After a backslash any character belongs to the literal but a newline, so such a
backslash stands before a newline or at the very end.

Main statement: an open string ends with the text unless such a backslash stands behind it
(`open_string_at_end_iff`).
-/

set_option autoImplicit false

namespace CardQuery

/-- Whether a text begins with a backslash that escapes nothing: a newline comes next, or the text
ends. -/
def Text.BeginsWithLoneBackslash (t : Text) : Prop :=
  ∃ rest, t = '\\' :: rest ∧ ∀ c ∈ rest.head?, c = '\n'

/-! ## One literal -/

/-- An open literal can be read on. -/
theorem Token.IsLexeme.ofText?_of_open {t : Token} {k : LiteralKind} (h : t.IsLexeme)
    (hk : t.kind = .literal k) (hopen : isTerminated k t.text = false) :
    Scan.ofText? t.text = some (.literal k) := by
  obtain ⟨cs, htext, hread | hclosed⟩ := h.after_of_literal hk
  · rw [htext, Scan.ofText?, Scan.start_mark, hread]
  · have hend : endsAtMark k.mark false cs = true := by
      rw [Scan.endsAtMark_of_after.1 _ hclosed, decide_eq_true rfl]
    simp [isTerminated, htext, hend] at hopen

/-- A string that is open takes every character, a backslash too. -/
theorem Scan.next_literal_string_ne_none (c : Char) : (literal .string).next c ≠ none := by
  simp only [next]
  split
  · simp
  · split <;> simp

/-! ## Rows of tokens -/

namespace Adjoining

theorem eq_nil_of_tokensText {ts : List Token} (h : Adjoining ts) (htext : tokensText ts = []) :
    ts = [] := by
  have hread := h.tokenize_tokensText
  rw [htext] at hread
  exact hread.symm

/-- A row begins with a blank when its text begins with a newline. -/
theorem head?_isBlank {ts : List Token} (h : Adjoining ts)
    (hline : ∀ c ∈ (tokensText ts).head?, c = '\n') : ∀ b ∈ ts.head?, b.isBlank = true := by
  intro b hb
  obtain ⟨rest, rfl⟩ := List.head?_eq_some_iff.1 hb
  have hlex : b.IsLexeme :=
    isLexeme_of_mem_tokenize (t := tokensText (b :: rest)) (by rw [h.tokenize_tokensText]; simp)
  obtain ⟨c, cs, hc⟩ := List.exists_cons_of_ne_nil hlex.text_ne_nil
  have hnewline : c = '\n' := hline c (by simp [hc])
  have hblank : b.kind = .blank := (hlex.kind_eq_blank_iff hc).2 (by rw [hnewline]; decide)
  simpa [Token.isBlank] using hblank

/-- What stands behind an open string: nothing, or a backslash that escapes nothing, as a word of
its own. -/
theorem behind_open_string {s : Token} {after : List Token} (h : Adjoining (s :: after))
    (hread : Scan.ofText? s.text = some (.literal .string)) :
    after = [] ∨ ∃ rest, after = ⟨.word, ['\\']⟩ :: rest ∧ Adjoining rest ∧
      ∀ c ∈ (tokensText rest).head?, c = '\n' := by
  cases h with
  | token hs hmade hstop rest =>
      -- no character could stop the string, so there is none
      left
      apply rest.eq_nil_of_tokensText
      cases htext : tokensText after with
      | nil => rfl
      | cons c cs =>
          rw [hread] at hs
          cases hs
          exact absurd (hstop c (by simp [htext])) (Scan.next_literal_string_ne_none c)
  | escape hs hstop rest => exact Or.inr ⟨_, rfl, rest, hstop⟩

end Adjoining

/-! ## A text -/

theorem Text.not_beginsWithLoneBackslash_nil : ¬ BeginsWithLoneBackslash [] := by
  rintro ⟨rest, h, -⟩
  cases h

/-- **Where an open string ends.** A string in which every quote is escaped ends at the last byte of
the text, and so is the last token, unless a backslash that escapes nothing stands behind it. Only
then do tokens follow: this backslash as a word, and a blank with what comes after it, if anything
does. -/
theorem open_string_at_end_iff {t : Text} {before after : List Token} {s : Token}
    (h : tokenize t = before ++ s :: after) (hk : s.kind = .literal .string)
    (hopen : isTerminated .string s.text = false) :
    (tokensWidth before + s.width = t.width ↔ ¬ (tokensText after).BeginsWithLoneBackslash) ∧
      (after = [] ↔ ¬ (tokensText after).BeginsWithLoneBackslash) ∧
      (after = [] ∨ ∃ rest, after = ⟨.word, ['\\']⟩ :: rest ∧
        ∀ b ∈ rest.head?, b.isBlank = true) := by
  have hlex : s.IsLexeme := isLexeme_of_mem_tokenize (t := t) (by simp [h])
  have hrow : Adjoining (s :: after) :=
    (adjoining_tokenize t).of_part ⟨before, [], by simp [h]⟩
  have hwidth : t.width = tokensWidth before + s.width + tokensWidth after := by
    rw [← tokensText_tokenize t, h, width_tokensText, tokensWidth_append, tokensWidth,
      Nat.add_assoc]
  rcases hrow.behind_open_string (hlex.ofText?_of_open hk hopen) with
    rfl | ⟨rest, rfl, hrest, hline⟩
  · have hnone := Text.not_beginsWithLoneBackslash_nil
    simp [hwidth, tokensWidth, hnone]
  · have hlone : (tokensText (⟨.word, ['\\']⟩ :: rest)).BeginsWithLoneBackslash :=
      ⟨tokensText rest, rfl, hline⟩
    have hpos : 0 < tokensWidth (⟨.word, ['\\']⟩ :: rest) := by
      have hslash : (⟨.word, ['\\']⟩ : Token).width = 1 := rfl
      rw [tokensWidth, hslash]
      omega
    refine ⟨iff_of_false (by omega) (not_not_intro hlone), iff_of_false (by simp)
      (not_not_intro hlone), Or.inr ⟨rest, rfl, hrest.head?_isBlank hline⟩⟩

/-- A backslash that escapes a quote keeps a string open to the end, over a newline and the words
behind it. -/
theorem open_string_at_end_iff_escaped_quote :
    tokenize "o:\"a\\\"\nt:elf".toList
        = [⟨.word, ['o']⟩, ⟨.comparison .colon, [':']⟩]
          ++ ⟨.literal .string, "\"a\\\"\nt:elf".toList⟩ :: [] ∧
      isTerminated .string "\"a\\\"\nt:elf".toList = false ∧
      tokensWidth [⟨.word, ['o']⟩, ⟨.comparison .colon, [':']⟩]
        + Token.width ⟨.literal .string, "\"a\\\"\nt:elf".toList⟩
        = Text.width "o:\"a\\\"\nt:elf".toList := by
  have htokens : tokenize "o:\"a\\\"\nt:elf".toList
      = [⟨.word, ['o']⟩, ⟨.comparison .colon, [':']⟩]
        ++ ⟨.literal .string, "\"a\\\"\nt:elf".toList⟩ :: [] := by
    decide +kernel
  have hopen : isTerminated .string "\"a\\\"\nt:elf".toList = false := by decide +kernel
  exact ⟨htokens, hopen, (open_string_at_end_iff htokens rfl hopen).1.2
    Text.not_beginsWithLoneBackslash_nil⟩

/-- **A string that is cut short**: a backslash before a newline ends it, and what was behind the
quote is read as a tag. -/
theorem open_string_cut_short :
    ∃ (s : Token) (after : List Token),
      tokenize "\"a\\\nt:elf".toList = [] ++ s :: after ∧ s.kind = .literal .string ∧
        isTerminated .string s.text = false ∧
        tokensWidth [] + s.width ≠ Text.width "\"a\\\nt:elf".toList ∧
        after = [⟨.word, ['\\']⟩, ⟨.blank, ['\n']⟩, ⟨.word, ['t']⟩, ⟨.comparison .colon, [':']⟩,
          ⟨.word, "elf".toList⟩] :=
  ⟨⟨.literal .string, "\"a".toList⟩, _, by decide +kernel, rfl, by decide +kernel,
    by decide +kernel, rfl⟩

end CardQuery
