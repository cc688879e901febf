import CardQuery.Editor.Completion
import CardQuery.Proofs.Expr.Reprint
import CardQuery.Proofs.Token.Literal
import CardQuery.Proofs.Token.Slice

/-!
# Written values

How a value is read again that was written by `writeValue`, in quotes or without.

In quotes it is always one closed string, since quotes and backslashes in it are escaped. The
reader of a string, though, takes a closing quote behind a backslash for an escaped one, even when
the backslash is itself escaped. Without quotes it is a run of minus signs and then a word, a
keyword or what begins with a slash, and need not be one value.

Main statements: which texts their quoted form says again (`stringContents_quoted_eq_iff`), and
which are one value without quotes (`isValue_tokenize_iff`).
-/

set_option autoImplicit false

namespace CardQuery

/-! ## In quotes -/

/-- A text with its quotes and backslashes escaped. -/
def escaped (t : Text) : Text :=
  t.flatMap fun c => if c = '"' ∨ c = '\\' then ['\\', c] else [c]

theorem quoted_eq (t : Text) : quoted t = '"' :: (escaped t ++ ['"']) := rfl

/-- What was escaped is resolved again, whatever stands behind it. -/
theorem unescape_escaped_append (t u : Text) : unescape (escaped t ++ u) = t ++ unescape u := by
  induction t with
  | nil => rfl
  | cons c cs ih =>
      have hcons : escaped (c :: cs)
          = (if c = '"' ∨ c = '\\' then ['\\', c] else [c]) ++ escaped cs := rfl
      rw [hcons]
      by_cases hc : c = '"' ∨ c = '\\'
      · rw [if_pos hc]
        simp [unescape, ih]
      · have hslash : c ≠ '\\' := fun h => hc (Or.inr h)
        rw [if_neg hc]
        simp [unescape, hslash, ih]

/-- What was escaped ends with a backslash just when the text does. -/
theorem getLast?_escaped_eq_backslash_iff (t : Text) :
    (escaped t).getLast? = some '\\' ↔ t.getLast? = some '\\' := by
  cases t using List.reverseRecOn with
  | nil => rfl
  | append_singleton u c =>
      have happend : escaped (u ++ [c])
          = escaped u ++ if c = '"' ∨ c = '\\' then ['\\', c] else [c] := by
        simp [escaped]
      rw [happend]
      split <;> simp

/-- A string stays open over what was escaped. -/
theorem Scan.after_escaped (t : Text) :
    (Scan.literal .string).after (escaped t) = some (.literal .string) := by
  induction t with
  | nil => rfl
  | cons c cs ih =>
      have hcons : escaped (c :: cs)
          = (if c = '"' ∨ c = '\\' then ['\\', c] else [c]) ++ escaped cs := rfl
      have hnext : (Scan.literal .string).after
          (if c = '"' ∨ c = '\\' then ['\\', c] else [c]) = some (.literal .string) := by
        split
        · next hc => rcases hc with rfl | rfl <;> rfl
        · next hc =>
            obtain ⟨hquote, hslash⟩ := not_or.1 hc
            simp [after, next, LiteralKind.mark, hquote, hslash]
      rw [hcons, after_append, hnext, Option.bind_some, ih]

/-- What is read in an open literal is resolved apart from what stands behind it: no backslash at
its end waits for a character. -/
theorem unescape_append_of_after {k : LiteralKind} {u : Text} (v : Text) :
    ((Scan.literal k).after u = some (.literal k) →
      unescape (u ++ v) = unescape u ++ unescape v) ∧
    ((Scan.escape k).after u = some (.literal k) →
      unescape ('\\' :: (u ++ v)) = unescape ('\\' :: u) ++ unescape v) := by
  induction u with
  | nil =>
      constructor <;> intro h
      · rfl
      · cases h
  | cons c cs ih =>
      obtain ⟨hopen, hescape⟩ := ih
      constructor <;> intro h
      · rw [Scan.after, Option.bind_eq_some_iff] at h
        obtain ⟨s, hnext, hrest⟩ := h
        simp only [Scan.next] at hnext
        split at hnext
        · -- a mark would have closed the literal
          cases hnext
          cases (Scan.after_complete hrest).2
        · split at hnext
          · next hslash =>
              cases hnext
              rw [hslash]
              exact hescape hrest
          · next hslash =>
              split at hnext <;> cases hnext
              simp [unescape, hslash, hopen hrest]
      · rw [Scan.after, Option.bind_eq_some_iff] at h
        obtain ⟨s, hnext, hrest⟩ := h
        simp only [Scan.next] at hnext
        split at hnext <;> cases hnext
        simp [unescape, hopen hrest]

/-- **A closed string says what stands between its quotes, and the closing quote too when that ends
with a backslash.** -/
theorem stringContents_closed {v : Text}
    (hv : (Scan.literal .string).after v = some (.literal .string)) :
    stringContents ('"' :: (v ++ ['"']))
      = unescape v ++ if v.getLast? = some '\\' then ['"'] else [] := by
  have hinner : dropOpening '"' ('"' :: (v ++ ['"'])) = v ++ ['"'] := rfl
  have hmark : ['\\', '"'].isSuffixOf (v ++ ['"']) = true ↔ v.getLast? = some '\\' := by
    rw [List.isSuffixOf_iff_suffix, List.getLast?_eq_some_iff]
    constructor
    · rintro ⟨ys, hys⟩
      have happend : (ys ++ ['\\']) ++ ['"'] = v ++ ['"'] := by simpa using hys
      exact ⟨ys, (List.append_cancel_right happend).symm⟩
    · rintro ⟨ys, rfl⟩
      exact ⟨ys, by simp⟩
  unfold stringContents
  simp only [hinner, List.getLast?_concat, true_and, List.dropLast_concat]
  by_cases hslash : v.getLast? = some '\\'
  · rw [if_neg (not_not_intro (hmark.2 hslash)), if_pos hslash,
      (unescape_append_of_after ['"']).1 hv]
    rfl
  · rw [if_pos (mt hmark.1 hslash), if_neg hslash, List.append_nil]

/-- What the quoted form of a text says. -/
theorem stringContents_quoted (t : Text) :
    stringContents (quoted t) = t ++ if t.getLast? = some '\\' then ['"'] else [] := by
  have hcontents : unescape (escaped t) = t := by
    have happend := unescape_escaped_append t []
    rwa [List.append_nil, unescape, List.append_nil] at happend
  have hclosed := stringContents_closed (Scan.after_escaped t)
  simp only [hcontents, getLast?_escaped_eq_backslash_iff] at hclosed
  exact hclosed

/-- **A quoted text says the text again, unless the text ends with a backslash.** -/
theorem stringContents_quoted_eq_iff (t : Text) :
    stringContents (quoted t) = t ↔ t.getLast? ≠ some '\\' := by
  rw [stringContents_quoted]
  split <;> simp_all

/-- A quoted text is read as one closed string. -/
theorem tokenize_quoted (t : Text) :
    tokenize (quoted t) = [⟨.literal .string, quoted t⟩] ∧
      Token.isClosed ⟨.literal .string, quoted t⟩ = true := by
  have hread : (Scan.literal .string).after (escaped t ++ ['"'])
      = some (.complete (.literal .string)) := by
    rw [Scan.after_append, Scan.after_escaped]
    rfl
  have hlex : Token.IsLexeme ⟨.literal .string, quoted t⟩ :=
    Token.isLexeme_of_ofText? (s := .complete (.literal .string)) hread rfl
  refine ⟨hlex, ?_⟩
  have hends : endsAtMark '"' false (escaped t ++ ['"']) = true :=
    (Scan.endsAtMark_of_after.1 _ hread).trans (by simp)
  rw [hlex.isClosed_eq rfl, isTerminated]
  simpa [quoted_eq, LiteralKind.mark] using hends

/-! ## Without quotes -/

/-- A character needs no quotes just when it can stand in a word. -/
theorem isWordChar_eq_not_needsQuotes (c : Char) : isWordChar c = !needsQuotes c := by
  simp [isWordChar, needsQuotes]

namespace Scan

/-- A literal that ends with its mark, and in which no line ends, is read to its end. -/
theorem after_of_endsAtMark {k : LiteralKind} {u : Text} (hline : '\n' ∉ u) :
    (endsAtMark k.mark false u = true →
      (literal k).after u = some (.complete (.literal k))) ∧
    (endsAtMark k.mark true u = true →
      (escape k).after u = some (.complete (.literal k))) := by
  induction u with
  | nil => simp [endsAtMark]
  | cons c cs ih =>
      obtain ⟨hc, hcs⟩ : '\n' ≠ c ∧ '\n' ∉ cs := by simpa using hline
      obtain ⟨hopen, hescape⟩ := ih hcs
      constructor <;> intro h
      · rw [endsAtMark, if_neg (by simp)] at h
        by_cases hmark : c = k.mark
        · rw [if_pos hmark, List.isEmpty_iff] at h
          simp [after, next, hmark, h]
        · rw [if_neg hmark] at h
          by_cases hslash : c = '\\'
          · simpa [after, next, hmark, hslash, k.mark_ne_backslash.symm] using
              hescape (by simpa [hslash] using h)
          · simpa [after, next, hmark, hslash, hc.symm] using hopen (by simpa [hslash] using h)
      · rw [endsAtMark, if_pos rfl] at h
        simpa [after, next, hc.symm] using hopen h

theorem after_word {t : Text} (h : ∀ c ∈ t, isWordChar c = true) :
    Scan.word.after t = some .word := by
  induction t with
  | nil => rfl
  | cons c cs ih =>
      have hc : isWordChar c = true := h c (by simp)
      rw [after, next, if_pos hc]
      exact ih fun d hd => h d (by simp [hd])

end Scan

/-- The minus signs at the start of a text are tokens of their own. -/
theorem tokenize_dropWhile_minus (t : Text) :
    tokenize t = (t.takeWhile (· = '-')).map (fun c => ⟨.minus, [c]⟩)
      ++ tokenize (t.dropWhile (· = '-')) := by
  induction t with
  | nil => rfl
  | cons c cs ih =>
      by_cases hc : c = '-'
      · subst hc
        have hread : tokenize (['-'] ++ cs) = [⟨.minus, ['-']⟩] ++ tokenize cs :=
          Scan.tokenize_append (s := .complete .minus) rfl fun _ _ => rfl
        rw [List.singleton_append] at hread
        simpa [hread] using ih
      · simp [hc]

/-- Whether a text of word characters is read as one value: it begins with no slash or is a
regular expression, and is no minus sign before a keyword or a slash. -/
def isPlainValue (t : Text) : Bool :=
  let rest := t.dropWhile (· = '-')
  if rest.head? = some '/' then rest = t && isTerminated .regex t
  else rest = t || wordKind rest = .word

/-- After a minus sign a value goes on with words and minus signs alone. -/
theorem isValue_minus_append_iff {signs : Text} (hne : signs ≠ []) {ts : List Token} :
    IsValue (signs.map (fun c => ⟨.minus, [c]⟩) ++ ts) ↔
      ∀ x ∈ ts, x.kind = .word ∨ x.kind = .minus := by
  obtain ⟨c, cs, rfl⟩ := List.exists_cons_of_ne_nil hne
  constructor
  · rintro (⟨x, k, hx, hk, -⟩ | ⟨x, op, hx, hk⟩ | ⟨-, hwords⟩)
    · obtain ⟨rfl, -⟩ : ⟨.minus, [c]⟩ = x ∧ _ := by simpa using hx
      cases hk
    · obtain ⟨rfl, -⟩ : ⟨.minus, [c]⟩ = x ∧ _ := by simpa using hx
      cases hk
    · exact fun x hx => hwords x (List.mem_append_right _ hx)
  · intro hwords
    refine Or.inr (Or.inr ⟨by simp, fun x hx => ?_⟩)
    rcases List.mem_append.1 hx with hx | hx
    · obtain ⟨d, -, rfl⟩ := List.mem_map.1 hx
      exact Or.inr rfl
    · exact hwords x hx

section Plain

variable {t : Text} (ht : ∀ c ∈ t, isWordChar c = true)
include ht

/-- The tokens of such a text are the ones that words are made of. -/
theorem continuesWord_of_mem_tokenize : ∀ x ∈ tokenize t, x.kind.continuesWord = true := by
  intro x hx
  have hlex := isLexeme_of_mem_tokenize hx
  obtain ⟨c, cs, htext⟩ := List.exists_cons_of_ne_nil hlex.text_ne_nil
  have hmem : c ∈ tokensText (tokenize t) := List.mem_flatMap.2 ⟨x, hx, by simp [htext]⟩
  rw [tokensText_tokenize] at hmem
  exact (hlex.continuesWord_iff htext).2 (ht c hmem)

theorem newline_not_mem : '\n' ∉ t := fun h => by
  have hword := ht _ h
  revert hword
  decide

/-- A text that begins with a slash is one value just when it is a regular expression. -/
theorem isValue_tokenize_slash_iff (hslash : t.head? = some '/') :
    IsValue (tokenize t) ↔ isTerminated .regex t = true := by
  obtain ⟨cs, rfl⟩ : ∃ cs, t = '/' :: cs := by
    cases t with
    | nil => cases hslash
    | cons c cs => exact ⟨cs, by rw [Option.some.inj hslash]⟩
  constructor
  · intro hvalue
    obtain ⟨b, more, ds, htokens, hb⟩ :=
      exists_first_token '/' cs fun x hx => isLexeme_of_mem_tokenize hx
    have hlex : b.IsLexeme := isLexeme_of_mem_tokenize (by rw [htokens]; simp)
    have hkind : b.kind = .literal .regex := hlex.kind_of_start hb
    rw [htokens] at hvalue
    rcases hvalue with ⟨x, k, hx, hk, hclosed⟩ | ⟨x, op, hx, hk⟩ | ⟨-, hwords⟩
    · obtain ⟨rfl, rfl⟩ : b = x ∧ more = [] := by simpa using hx
      have htext := text_eq_of_tokenize htokens
      rwa [hlex.isClosed_eq hkind, htext] at hclosed
    · obtain ⟨rfl, -⟩ : b = x ∧ more = [] := by simpa using hx
      rw [hkind] at hk
      cases hk
    · rcases hwords b (by simp) with hk | hk <;> rw [hkind] at hk <;> cases hk
  · intro hterminated
    have hends : endsAtMark '/' false cs = true := by
      simpa [isTerminated, LiteralKind.mark] using hterminated
    have hline : '\n' ∉ cs := fun h => newline_not_mem ht (List.mem_cons_of_mem _ h)
    have hread := (Scan.after_of_endsAtMark (k := .regex) hline).1 hends
    have hlex : Token.IsLexeme ⟨.literal .regex, '/' :: cs⟩ :=
      Token.isLexeme_of_ofText? (s := .complete (.literal .regex)) hread rfl
    refine Or.inl ⟨_, .regex, hlex, rfl, ?_⟩
    rw [hlex.isClosed_eq rfl, hterminated]

/-- A text that begins with no slash and no minus sign is one word or keyword. -/
theorem tokenize_word (hne : t ≠ []) (hslash : t.head? ≠ some '/') (hminus : t.head? ≠ some '-') :
    tokenize t = [⟨wordKind t, t⟩] := by
  obtain ⟨c, cs, rfl⟩ := List.exists_cons_of_ne_nil hne
  have hstart : Scan.start c = .word := by
    rcases Scan.isWordChar_iff_start.1 (ht c (by simp)) with h | h | h
    · exact h
    · exact absurd (congrArg some (Scan.eq_mark_of_start h)) hslash
    · exact absurd h fun h => by
        unfold Scan.start at h
        split at h
        · cases h
        · split at h <;> cases h
          exact hminus rfl
  have hread : Scan.ofText? (c :: cs) = some .word := by
    rw [Scan.ofText?, hstart]
    exact Scan.after_word fun d hd => ht d (by simp [hd])
  exact Token.isLexeme_of_ofText? (t := ⟨wordKind (c :: cs), c :: cs⟩) hread rfl

/-- **Which texts of word characters are read as one value.** -/
theorem isValue_tokenize_iff (hne : t ≠ []) :
    IsValue (tokenize t) ↔ isPlainValue t = true := by
  obtain ⟨signs, hsigns⟩ : ∃ signs, t.takeWhile (· = '-') = signs := ⟨_, rfl⟩
  obtain ⟨rest, hrest⟩ : ∃ rest, t.dropWhile (· = '-') = rest := ⟨_, rfl⟩
  have hsplit : signs ++ rest = t := by
    rw [← hsigns, ← hrest, List.takeWhile_append_dropWhile]
  have htokens := tokenize_dropWhile_minus t
  rw [hsigns, hrest] at htokens
  have hrestword : ∀ c ∈ rest, isWordChar c = true := fun c hc =>
    ht c (by rw [← hsplit]; exact List.mem_append_right signs hc)
  have hminus : rest.head? ≠ some '-' := by
    have hhead := List.head?_dropWhile_not (fun c => decide (c = '-')) t
    rw [hrest] at hhead
    intro h
    simp [h] at hhead
  have hplain : isPlainValue t = if rest.head? = some '/' then
        decide (rest = t) && isTerminated .regex t
      else decide (rest = t ∨ wordKind rest = .word) := by
    simp [isPlainValue, hrest]
  rw [hplain]
  by_cases hsame : rest = t
  · -- there is no minus sign to begin with
    rw [hsame] at hminus ⊢
    by_cases hslash : t.head? = some '/'
    · simpa [hslash] using isValue_tokenize_slash_iff ht hslash
    · rw [tokenize_word ht hne hslash hminus]
      rcases wordKind_eq t with hk | ⟨op, hk⟩
      · simp [hslash, IsValue, hk]
      · simp [hslash, IsValue, hk]
  · -- what begins with a minus sign is one value when only words and minus signs follow
    have hsign : signs ≠ [] := by
      rintro rfl
      exact hsame (by simpa using hsplit)
    have hvalue : IsValue (tokenize t) ↔ ∀ x ∈ tokenize rest, x.kind = .word ∨ x.kind = .minus := by
      rw [htokens]
      exact isValue_minus_append_iff hsign
    rw [hvalue]
    by_cases hslash : rest.head? = some '/'
    · obtain ⟨cs, rfl⟩ : ∃ cs, rest = '/' :: cs := by
        cases rest with
        | nil => cases hslash
        | cons c cs => exact ⟨cs, by rw [Option.some.inj hslash]⟩
      obtain ⟨b, more, ds, hmore, hb⟩ :=
        exists_first_token '/' cs fun x hx => isLexeme_of_mem_tokenize hx
      have hkind : b.kind = .literal .regex :=
        (isLexeme_of_mem_tokenize (by rw [hmore]; simp)).kind_of_start hb
      simp [hmore, hkind, hsame]
    · by_cases hnil : rest = []
      · subst hnil
        simp [tokenize, wordKind, Text.asciiLower]
      · rw [tokenize_word hrestword hnil hslash hminus]
        rcases wordKind_eq rest with hk | ⟨op, hk⟩ <;> simp [hslash, hsame, hk]

end Plain

end CardQuery
