import CardQuery.Proofs.Token.Lexeme

/-!
# The ends of lexemes

The first and the last character of a closed lexeme tell whether it is a blank, and the last also
whether it is an opening parenthesis. So trimming the text of a row of tokens drops its blanks at
both ends and nothing else. Blanks and words have characters of one sort only.

Main statements: `trim_tokensText`, `trim_tokensText_cons` and `trim_tokensText_concat`.
-/

set_option autoImplicit false

namespace CardQuery

/-! ## The last character -/

namespace Scan

/-- A run of blanks goes on with blanks alone. -/
theorem blank_after {t : Text} {s : Scan} (h : Scan.blank.after t = some s) :
    ∀ c ∈ t, CardQuery.isBlank c = true := by
  induction t with
  | nil => simp
  | cons c cs ih =>
      by_cases hc : CardQuery.isBlank c = true
      · have hrest : Scan.blank.after cs = some s := by simpa [after, next, hc] using h
        exact List.forall_mem_cons.2 ⟨hc, ih hrest⟩
      · simp [after, next, hc] at h

/-- A word goes on with characters of words alone. -/
theorem word_after {t : Text} {s : Scan} (h : Scan.word.after t = some s) :
    ∀ c ∈ t, isWordChar c = true := by
  induction t with
  | nil => simp
  | cons c cs ih =>
      by_cases hc : isWordChar c = true
      · have hrest : Scan.word.after cs = some s := by simpa [after, next, hc] using h
        exact List.forall_mem_cons.2 ⟨hc, ih hrest⟩
      · simp [after, next, hc] at h

/-- A character that neither continues a word nor ends a token can only belong to a run of blanks
or to an open literal. -/
theorem next_separator {s s' : Scan} {c : Char} (hword : isWordChar c = false) (heq : c ≠ '=')
    (hmark : ∀ k : LiteralKind, c ≠ k.mark) (hslash : c ≠ '\\') (h : s.next c = some s') :
    (CardQuery.isBlank c = true ∧ s' = .blank) ∨ ∃ k, s' = .literal k := by
  cases s with
  | blank =>
      simp only [next] at h
      split at h <;> cases h
      next hblank => exact Or.inl ⟨hblank, rfl⟩
  | literal k =>
      simp only [next, hmark k, hslash, if_false] at h
      split at h <;> cases h
      exact Or.inr ⟨k, rfl⟩
  | escape k =>
      simp only [next] at h
      split at h <;> cases h
      exact Or.inr ⟨k, rfl⟩
  | complete k => cases h
  | _ => simp [next, hword, heq] at h

end Scan

namespace Token.IsLexeme

variable {t : Token}

/-- Every character of a blank token is blank. -/
theorem forall_isBlank (h : t.IsLexeme) (hk : t.kind = .blank) :
    ∀ c ∈ t.text, CardQuery.isBlank c = true := by
  obtain ⟨s, hs, -⟩ := h.ofText?
  obtain ⟨c, cs, ht⟩ := List.exists_cons_of_ne_nil h.text_ne_nil
  have hc : CardQuery.isBlank c = true := (h.kind_eq_blank_iff ht).1 hk
  rw [ht, Scan.ofText?, Scan.start_eq_blank_iff.2 hc] at hs
  rw [ht]
  exact List.forall_mem_cons.2 ⟨hc, Scan.blank_after hs⟩

/-- Every character of a word or a keyword can stand in a word. -/
theorem forall_isWordChar (h : t.IsLexeme) (hk : t.kind = .word ∨ t.kind.isKeyword = true) :
    ∀ c ∈ t.text, isWordChar c = true := by
  obtain ⟨s, hs, -⟩ := h.ofText?
  obtain ⟨c, cs, ht⟩ := List.exists_cons_of_ne_nil h.text_ne_nil
  have hstart : Scan.start c = .word := by
    revert hk
    apply h.forall_start ht (P := fun k s => k = .word ∨ k.isKeyword = true → s = .word)
    all_goals simp [TokenKind.isKeyword]
  rw [ht, Scan.ofText?, hstart] at hs
  rw [ht]
  exact List.forall_mem_cons.2
    ⟨Scan.isWordChar_iff_start.2 (Or.inl hstart), Scan.word_after hs⟩

/-- A closed lexeme that ends with such a character is a blank or has no other. -/
theorem last_separator (h : t.IsLexeme) (hclosed : t.isClosed = true) {u : Text} {c : Char}
    (ht : t.text = u ++ [c]) (hword : isWordChar c = false) (heq : c ≠ '=')
    (hmark : ∀ k : LiteralKind, c ≠ k.mark) (hslash : c ≠ '\\') :
    (CardQuery.isBlank c = true ∧ t.kind = .blank) ∨ t.text = [c] := by
  by_cases hu : u = []
  · subst hu
    exact Or.inr ht
  · obtain ⟨s, hs, hmade⟩ := h.ofText?
    have hread : (Scan.ofText? u).bind (fun s₀ => s₀.after [c]) = some s := by
      rw [← Scan.ofText?_append hu, ← ht, hs]
    obtain ⟨s₀, -, hnext⟩ := Option.bind_eq_some_iff.1 hread
    have hstep : s₀.next c = some s := by simpa [Scan.after] using hnext
    -- an open literal may end with anything, but a closed one may not
    rcases Scan.next_separator hword heq hmark hslash hstep with ⟨hblank, rfl⟩ | ⟨k, rfl⟩
    · exact Or.inl ⟨hblank, kind_of_tokens hmade⟩
    · have hk : t.kind = .literal k := kind_of_tokens hmade
      simp [Token.isClosed, hk, isClosedLiteral_of_open hs] at hclosed

/-- A closed lexeme that ends with a blank is one. -/
theorem kind_eq_blank_of_last (h : t.IsLexeme) (hclosed : t.isClosed = true) {u : Text} {c : Char}
    (ht : t.text = u ++ [c]) (hc : CardQuery.isBlank c = true) : t.kind = .blank := by
  have hword : isWordChar c = false := by simp [isWordChar, hc]
  have hne : ∀ d : Char, CardQuery.isBlank d = false → c ≠ d := by
    rintro d hd rfl
    rw [hc] at hd
    cases hd
  have hmark : ∀ k : LiteralKind, c ≠ k.mark := by
    intro k
    cases k <;> exact hne _ (by decide)
  rcases h.last_separator hclosed ht hword (hne '=' (by decide)) hmark (hne '\\' (by decide)) with
    ⟨-, hk⟩ | hone
  · exact hk
  · exact (h.kind_eq_blank_iff hone).2 hc

/-- A closed lexeme that ends with an opening parenthesis is one. -/
theorem kind_eq_leftParen_of_last (h : t.IsLexeme) (hclosed : t.isClosed = true) {u : Text}
    (ht : t.text = u ++ ['(']) : t.kind = .leftParen := by
  have hmark : ∀ k : LiteralKind, '(' ≠ k.mark := by
    intro k
    cases k <;> decide
  rcases h.last_separator hclosed ht (by decide) (by decide) hmark (by decide) with
    ⟨hblank, -⟩ | hone
  · exact absurd hblank (by decide)
  · exact h.kind_of_start hone

/-- A lexeme that begins with a closing parenthesis is one. -/
theorem kind_eq_rightParen_of_head (h : t.IsLexeme) {u : Text} (ht : t.text = ')' :: u) :
    t.kind = .rightParen :=
  h.kind_of_start ht

end Token.IsLexeme

/-! ## Trimming -/

namespace Text

theorem trimLeft_append {u : Text} (hu : ∀ c ∈ u, isBlank c = true) (t : Text) :
    trimLeft (u ++ t) = trimLeft t := by
  rw [trimLeft, trimLeft, List.dropWhile_append_of_pos hu]

theorem trimLeft_eq_self {t : Text} (ht : ∀ c ∈ t.head?, isBlank c = false) : trimLeft t = t := by
  cases t with
  | nil => rfl
  | cons c cs => exact List.dropWhile_cons_of_neg (by simp [ht c rfl])

theorem trimRight_append {u : Text} (hu : ∀ c ∈ u, isBlank c = true) (t : Text) :
    trimRight (t ++ u) = trimRight t := by
  have hreverse : ∀ c ∈ u.reverse, isBlank c = true := fun c hc => hu c (List.mem_reverse.1 hc)
  rw [trimRight, trimRight, List.reverse_append, List.dropWhile_append_of_pos hreverse]

theorem trimRight_eq_self {t : Text} (ht : ∀ c ∈ t.getLast?, isBlank c = false) :
    trimRight t = t := by
  have hreverse : trimLeft t.reverse = t.reverse :=
    trimLeft_eq_self fun c hc => ht c (by simpa using hc)
  rw [trimRight, ← trimLeft, hreverse, List.reverse_reverse]

end Text

/-- The text of a row does not begin with a blank when the row does not. -/
theorem head?_tokensText {ts : List Token} (h : Lexed ts)
    (hfirst : ∀ t ∈ ts.head?, t.kind ≠ .blank) :
    ∀ c ∈ (tokensText ts).head?, isBlank c = false := by
  cases ts with
  | nil => simp
  | cons t ts =>
      have hlex := h.lexeme t (by simp)
      obtain ⟨c, cs, ht⟩ := List.exists_cons_of_ne_nil hlex.text_ne_nil
      intro d hd
      obtain rfl : c = d := by simpa [ht] using hd
      rw [Bool.eq_false_iff]
      exact fun hblank => hfirst t rfl ((hlex.kind_eq_blank_iff ht).2 hblank)

/-- The last token of a row and the last character of the row's text. -/
theorem exists_last_of_getLast? {ts : List Token} (h : Lexed ts) {c : Char}
    (hc : (tokensText ts).getLast? = some c) :
    ∃ t u, ts.getLast? = some t ∧ t.text = u ++ [c] := by
  rcases List.eq_nil_or_concat ts with rfl | ⟨us, t, rfl⟩
  · cases hc
  · rw [List.concat_eq_append] at h hc ⊢
    have hne := (h.lexeme t (by simp)).text_ne_nil
    have hlast : t.text.getLast? = some c := by
      rw [tokensText_append, tokensText_cons, tokensText_nil, List.append_nil,
        List.getLast?_append_of_ne_nil _ hne] at hc
      exact hc
    exact ⟨t, t.text.dropLast, by simp, (List.dropLast_append_getLast? c hlast).symm⟩

/-- The text of a row does not end with a blank when the row does not. -/
theorem getLast?_tokensText {ts : List Token} (h : Lexed ts)
    (hlast : ∀ t ∈ ts.getLast?, t.kind ≠ .blank) :
    ∀ c ∈ (tokensText ts).getLast?, isBlank c = false := by
  intro c hc
  obtain ⟨t, u, ht, htext⟩ := exists_last_of_getLast? h hc
  have hmem := List.mem_of_getLast? ht
  rw [Bool.eq_false_iff]
  exact fun hblank => hlast t ht
    ((h.lexeme t hmem).kind_eq_blank_of_last (h.closed t hmem) htext hblank)

/-- A row without blanks at its ends is what trimming leaves of its text. -/
theorem trim_tokensText {ts : List Token} (h : Lexed ts)
    (hfirst : ∀ t ∈ ts.head?, t.kind ≠ .blank) (hlast : ∀ t ∈ ts.getLast?, t.kind ≠ .blank) :
    (tokensText ts).trim = tokensText ts := by
  rw [Text.trim, Text.trimLeft_eq_self (head?_tokensText h hfirst),
    Text.trimRight_eq_self (getLast?_tokensText h hlast)]

/-- Trimming drops a blank token at the start. -/
theorem trim_tokensText_cons {b : Token} {ts : List Token} (hlex : b.IsLexeme)
    (hb : b.kind = .blank) : (tokensText (b :: ts)).trim = (tokensText ts).trim := by
  rw [Text.trim, Text.trim, tokensText_cons, Text.trimLeft_append (hlex.forall_isBlank hb)]

/-- Trimming drops a blank token at the end of a row that does not begin with one. -/
theorem trim_tokensText_concat {b : Token} {ts : List Token} (h : Lexed (ts ++ [b]))
    (hb : b.kind = .blank) (hfirst : ∀ t ∈ ts.head?, t.kind ≠ .blank) (hne : ts ≠ []) :
    (tokensText (ts ++ [b])).trim = (tokensText ts).trim := by
  -- the first token keeps the text from being trimmed away from the left
  have hts : Lexed ts := h.of_part (List.prefix_append ts [b]).isInfix
  have hhead : ∀ t ∈ (ts ++ [b]).head?, t.kind ≠ .blank := by
    obtain ⟨t, ts, rfl⟩ := List.exists_cons_of_ne_nil hne
    simpa using hfirst
  have hblank := (h.lexeme b (by simp)).forall_isBlank hb
  rw [Text.trim, Text.trim, Text.trimLeft_eq_self (head?_tokensText h hhead),
    Text.trimLeft_eq_self (head?_tokensText hts hfirst), tokensText_append, tokensText_cons,
    tokensText_nil, List.append_nil, Text.trimRight_append hblank]

end CardQuery
