import CardQuery.Parse.Problem
import CardQuery.Token.Scanner
import Mathlib.Data.List.Chain

/-!
# Lexemes and their neighbours

A *lexeme* is a token that its own text reads back as. Which lexemes can stand side by side
depends on their kinds alone (`TokenKind.canPrecede`), as long as every literal is closed: the
first character of the next token then never belongs to the token before it.

Main statements: the tokens of a text are lexemes, and every two neighbours may touch
(`isLexeme_of_mem_tokenize`, `touching_tokenize`); a row of closed lexemes that may touch is
read back token by token (`Lexed.tokenize_tokensText`).
-/

set_option autoImplicit false

namespace CardQuery

/-! ## Reading on -/

namespace Scan

/-- The token being read after further characters, if all of them belong to it. -/
def after (s : Scan) : Text → Option Scan
  | [] => some s
  | c :: cs => (s.next c).bind fun s' => s'.after cs

/-- The token that a whole text is read as, if it is one token. -/
def ofText? : Text → Option Scan
  | [] => none
  | c :: cs => (start c).after cs

theorem after_append (s : Scan) (u v : Text) :
    s.after (u ++ v) = (s.after u).bind fun s' => s'.after v := by
  induction u generalizing s with
  | nil => rfl
  | cons c cs ih =>
      cases h : s.next c with
      | none => simp [after, h]
      | some s' => simp [after, h, ih]

theorem ofText?_append {u v : Text} (hu : u ≠ []) :
    ofText? (u ++ v) = (ofText? u).bind fun s => s.after v := by
  cases u with
  | nil => exact absurd rfl hu
  | cons c cs => exact after_append _ cs v

theorem ne_nil_of_ofText? {t : Text} {s : Scan} (h : ofText? t = some s) : t ≠ [] := by
  rintro rfl
  simp [ofText?] at h

/-- Characters that belong to the token are read on. -/
theorem run_after {s s' : Scan} {u : Text} (h : s.after u = some s') (read t : Text) :
    s.run read (u ++ t) = s'.run (read ++ u) t := by
  induction u generalizing s read with
  | nil =>
      cases h
      simp
  | cons c cs ih =>
      cases hc : s.next c with
      | none => simp [after, hc] at h
      | some s₁ =>
          have hrest : s₁.after cs = some s' := by simpa [after, hc] using h
          rw [List.cons_append, run, hc]
          show s₁.run (read ++ [c]) (cs ++ t) = _
          rw [ih hrest, List.append_assoc, List.singleton_append]

/-- A token ends where the next character does not belong to it. -/
theorem run_stop {s : Scan} {t : Text} (h : ∀ c ∈ t.head?, s.next c = none) (read : Text) :
    s.run read t = s.tokens read ++ tokenize t := by
  cases t with
  | nil => simp [run, tokenize]
  | cons c cs =>
      have hc : s.next c = none := h c rfl
      simp [run, hc, tokenize]

/-- Either the whole text belongs to the token, or the token ends at a character of it. -/
theorem after_or_stop (s : Scan) (t : Text) :
    (∃ s', s.after t = some s') ∨
      ∃ u c v s', t = u ++ c :: v ∧ s.after u = some s' ∧ s'.next c = none := by
  induction t generalizing s with
  | nil => exact Or.inl ⟨s, rfl⟩
  | cons c cs ih =>
      cases hc : s.next c with
      | none => exact Or.inr ⟨[], c, cs, s, rfl, rfl, hc⟩
      | some s₁ =>
          rcases ih s₁ with ⟨s', h⟩ | ⟨u, d, v, s', rfl, hu, hd⟩
          · exact Or.inl ⟨s', by simpa [after, hc] using h⟩
          · exact Or.inr ⟨c :: u, d, v, s', rfl, by simpa [after, hc] using hu, hd⟩

theorem tokens_ne_nil (s : Scan) (read : Text) : s.tokens read ≠ [] := by
  cases s <;> simp [tokens]

/-- What a token can become as further characters are read. -/
def Becomes : Scan → Scan → Prop
  | .literal k, s => s = .literal k ∨ s = .escape k ∨ s = .complete (.literal k)
  | .bang, s => s = .bang ∨ s = .complete (.comparison .notEqual)
  | .angle a e, s => s = .angle a e ∨ s = .complete (.comparison e)
  | .escape _, _ => False
  | s₀, s => s = s₀

theorem becomes_next {s₀ s s' : Scan} {c : Char} (h : s₀.Becomes s) (hc : s.next c = some s') :
    s₀.Becomes s' := by
  cases s₀ with
  | literal k =>
      -- an open literal is completed by its mark, escaped by a backslash, and else stays open
      rcases h with rfl | rfl | rfl
      · simp only [next] at hc
        split at hc
        · exact Or.inr (Or.inr (Option.some.inj hc).symm)
        · split at hc
          · exact Or.inr (Or.inl (Option.some.inj hc).symm)
          · split at hc <;> cases hc
            exact Or.inl rfl
      · simp only [next] at hc
        split at hc <;> cases hc
        exact Or.inl rfl
      · simp [next] at hc
  | bang =>
      rcases h with rfl | rfl
      · simp only [next] at hc
        split at hc <;> cases hc
        exact Or.inr rfl
      · simp [next] at hc
  | angle a e =>
      rcases h with rfl | rfl
      · simp only [next] at hc
        split at hc <;> cases hc
        exact Or.inr rfl
      · simp [next] at hc
  | escape k => exact h.elim
  | blank =>
      obtain rfl : s = .blank := h
      simp only [next] at hc
      split at hc <;> cases hc
      rfl
  | word =>
      obtain rfl : s = .word := h
      simp only [next] at hc
      split at hc <;> cases hc
      rfl
  | complete k =>
      obtain rfl : s = .complete k := h
      simp [next] at hc

theorem becomes_after {s₀ s s' : Scan} {u : Text} (h : s₀.Becomes s) (hu : s.after u = some s') :
    s₀.Becomes s' := by
  induction u generalizing s with
  | nil =>
      cases hu
      exact h
  | cons c cs ih =>
      cases hc : s.next c with
      | none => simp [after, hc] at hu
      | some s₁ => exact ih (becomes_next h hc) (by simpa [after, hc] using hu)

theorem becomes_start (c : Char) : (start c).Becomes (start c) := by
  unfold start
  split
  · rfl
  · split <;> simp [Becomes]

/-- What can become of the token that a text's first character starts. -/
theorem becomes_of_ofText? {c : Char} {cs : Text} {s : Scan} (h : ofText? (c :: cs) = some s) :
    (start c).Becomes s :=
  becomes_after (becomes_start c) h

/-! ### What a character starts -/

theorem start_eq_blank_iff {c : Char} : start c = .blank ↔ isBlank c = true := by
  unfold start
  constructor
  · intro h
    split at h
    · assumption
    · split at h <;> cases h
  · intro h
    rw [if_pos h]

/-- The tokens that a character can start. -/
def starts : List Scan :=
  [.blank, .word, .literal .string, .literal .regex, .bang, .angle .less .lessEqual,
    .angle .greater .greaterEqual, .complete .leftParen, .complete .rightParen, .complete .minus,
    .complete (.comparison .colon), .complete (.comparison .equal)]

theorem start_mem_starts (c : Char) : start c ∈ starts := by
  unfold start
  split
  · decide
  · split <;> decide

/-- A character can stand in a word just when it starts a word, a regular expression or a minus
sign. -/
theorem isWordChar_iff_start {c : Char} :
    isWordChar c = true ↔
      start c = .word ∨ start c = .literal .regex ∨ start c = .complete .minus := by
  unfold start
  by_cases hb : isBlank c = true
  · simp [hb, isWordChar]
  · rw [if_neg hb]
    split <;> simp_all [isWordChar]

/-- The tokens that one character completes. -/
def singles : List TokenKind :=
  [.leftParen, .rightParen, .minus, .comparison .colon, .comparison .equal]

theorem mem_singles {c : Char} {k : TokenKind} (h : start c = .complete k) : k ∈ singles := by
  have hs := start_mem_starts c
  rw [h] at hs
  simpa [starts, singles] using hs

/-- No two characters complete the same token. -/
theorem start_eq_complete_iff {c d : Char} {k : TokenKind} (hd : start d = .complete k) :
    start c = .complete k ↔ c = d := by
  refine ⟨fun h => ?_, fun h => h ▸ hd⟩
  unfold start at h
  split at h
  · cases h
  · split at h <;> cases h
    all_goals
      unfold start at hd
      split at hd
      · cases hd
      · split at hd <;> cases hd
        rfl

end Scan

/-! ## Lexemes -/

/-- Whether a token is what its text reads back as. -/
def Token.IsLexeme (t : Token) : Prop :=
  tokenize t.text = [t]

instance : DecidablePred Token.IsLexeme := fun t =>
  inferInstanceAs (Decidable (tokenize t.text = [t]))

namespace Token

theorem isLexeme_of_ofText? {t : Token} {s : Scan} (hs : Scan.ofText? t.text = some s)
    (ht : s.tokens t.text = [t]) : t.IsLexeme := by
  unfold IsLexeme
  cases h : t.text with
  | nil => simp [h, Scan.ofText?] at hs
  | cons c cs =>
      rw [h] at hs ht
      have hrun := Scan.run_after (u := cs) hs [c] []
      rw [List.append_nil, List.singleton_append] at hrun
      rw [tokenize, hrun]
      exact ht

/-- The reading of a lexeme ends with the token made. -/
theorem IsLexeme.ofText? {t : Token} (h : t.IsLexeme) :
    ∃ s, Scan.ofText? t.text = some s ∧ s.tokens t.text = [t] := by
  unfold IsLexeme at h
  cases htext : t.text with
  | nil => simp [htext, tokenize] at h
  | cons c cs =>
      rw [htext, tokenize] at h
      -- either one reading takes the whole text, or it stops at some character of it
      rcases Scan.after_or_stop (Scan.start c) cs with ⟨s, hs⟩ | ⟨u, d, v, s, rfl, hu, hd⟩
      · refine ⟨s, hs, ?_⟩
        have hrun := Scan.run_after hs [c] []
        rw [List.append_nil, h] at hrun
        exact hrun.symm
      · -- a reading that stops early makes at least two tokens
        rw [Scan.run_after hu [c] (d :: v),
          Scan.run_stop (by simpa using hd) ([c] ++ u)] at h
        have hlen := congrArg List.length h
        have hfirst := List.length_pos_iff.2 (Scan.tokens_ne_nil s ([c] ++ u))
        have hrest : 0 < (tokenize (d :: v)).length := by
          refine List.length_pos_iff.2 fun hnil => ?_
          have htext := tokensText_tokenize (d :: v)
          rw [hnil] at htext
          cases htext
        simp only [List.length_append, List.length_singleton] at hlen
        omega

theorem IsLexeme.text_ne_nil {t : Token} (h : t.IsLexeme) : t.text ≠ [] := by
  obtain ⟨s, hs, -⟩ := h.ofText?
  exact Scan.ne_nil_of_ofText? hs

theorem IsLexeme.width_pos {t : Token} (h : t.IsLexeme) : 0 < t.width := by
  obtain ⟨c, cs, htext⟩ := List.exists_cons_of_ne_nil h.text_ne_nil
  have hc := c.utf8Size_pos
  rw [width, htext, Text.width_cons]
  omega

theorem kind_of_tokens {k : TokenKind} {read : Text} {t : Token}
    (h : [(⟨k, read⟩ : Token)] = [t]) : t.kind = k := by
  cases h
  rfl

/-- The kind of a lexeme, by what its first character starts. -/
theorem IsLexeme.kind_of_start {t : Token} {c : Char} {cs : Text} (h : t.IsLexeme)
    (ht : t.text = c :: cs) :
    match Scan.start c with
    | .blank => t.kind = .blank
    | .word => t.kind = wordKind t.text
    | .literal k => t.kind = .literal k
    | .escape _ => False
    | .bang => t.kind = .unknown ∨ t.kind = .comparison .notEqual
    | .angle a e => t.kind = .comparison a ∨ t.kind = .comparison e
    | .complete k => t.kind = k := by
  obtain ⟨s, hs, hmade⟩ := h.ofText?
  rw [ht] at hs
  have hbecomes : (Scan.start c).Becomes s := Scan.becomes_of_ofText? hs
  cases hstart : Scan.start c <;> rw [hstart] at hbecomes
  case escape => exact hbecomes
  case literal k =>
    rcases hbecomes with rfl | rfl | rfl
    · exact kind_of_tokens hmade
    · exact absurd (congrArg List.length hmade) (by simp [Scan.tokens])
    · exact kind_of_tokens hmade
  case bang =>
    rcases hbecomes with rfl | rfl
    · exact Or.inl (kind_of_tokens hmade)
    · exact Or.inr (kind_of_tokens hmade)
  case angle a e =>
    rcases hbecomes with rfl | rfl
    · exact Or.inl (kind_of_tokens hmade)
    · exact Or.inr (kind_of_tokens hmade)
  all_goals
    cases hbecomes
    exact kind_of_tokens hmade

end Token

/-! ## Neighbours -/

namespace TokenKind

/-- Whether a token of this kind would be read on as part of a word before it. -/
def continuesWord : TokenKind → Bool
  | .word | .keyword _ | .minus | .literal .regex => true
  | _ => false

/-- Whether a token of kind `next` can directly follow one of kind `k`, neither of them an open
literal. -/
def canPrecede (k next : TokenKind) : Bool :=
  match k with
  | .blank => next ≠ .blank
  | .word | .keyword _ => !next.continuesWord
  | .comparison .less | .comparison .greater | .unknown => next ≠ .comparison .equal
  | _ => true

end TokenKind

theorem wordKind_eq (t : Text) : wordKind t = .word ∨ ∃ op, wordKind t = .keyword op := by
  unfold wordKind
  simp only
  split
  · exact Or.inr ⟨.and, rfl⟩
  · split
    · exact Or.inr ⟨.or, rfl⟩
    · exact Or.inl rfl

theorem continuesWord_wordKind (t : Text) : (wordKind t).continuesWord = true := by
  rcases wordKind_eq t with h | ⟨op, h⟩ <;> rw [h] <;> rfl

theorem canPrecede_wordKind (t : Text) (next : TokenKind) :
    (wordKind t).canPrecede next = !next.continuesWord := by
  rcases wordKind_eq t with h | ⟨op, h⟩ <;> rw [h] <;> rfl

namespace Token.IsLexeme

variable {t : Token} {ch : Char} {cs : Text}

/-- A property of the kind of a lexeme and of what its first character starts, checked start by
start. -/
theorem forall_start (h : t.IsLexeme) (ht : t.text = ch :: cs) {P : TokenKind → Scan → Prop}
    (blank : P .blank .blank) (word : P (wordKind t.text) .word)
    (literal : ∀ k, P (.literal k) (.literal k))
    (bang : ∀ k ∈ [.unknown, .comparison .notEqual], P k .bang)
    (less : ∀ k ∈ [.comparison .less, .comparison .lessEqual], P k (.angle .less .lessEqual))
    (greater : ∀ k ∈ [.comparison .greater, .comparison .greaterEqual],
      P k (.angle .greater .greaterEqual))
    (complete : ∀ k ∈ [.leftParen, .rightParen, .minus, .comparison .colon, .comparison .equal],
      P k (.complete k)) :
    P t.kind (Scan.start ch) := by
  have hk := h.kind_of_start ht
  have hs := Scan.start_mem_starts ch
  generalize Scan.start ch = s at hk hs
  simp only [Scan.starts, List.mem_cons, List.not_mem_nil, or_false] at hs
  rcases hs with rfl | rfl | rfl | rfl | rfl | rfl | rfl | rfl | rfl | rfl | rfl | rfl
  · rw [hk]; exact blank
  · rw [hk]; exact word
  · rw [hk]; exact literal _
  · rw [hk]; exact literal _
  · exact bang _ (by simpa using hk)
  · exact less _ (by simpa using hk)
  · exact greater _ (by simpa using hk)
  all_goals
    rw [hk]
    exact complete _ (by simp)

theorem kind_eq_blank_iff (h : t.IsLexeme) (ht : t.text = ch :: cs) :
    t.kind = .blank ↔ CardQuery.isBlank ch = true := by
  rw [← Scan.start_eq_blank_iff]
  apply h.forall_start ht (P := fun k s => k = .blank ↔ s = .blank)
  · simp
  · rcases wordKind_eq t.text with hw | ⟨op, hw⟩ <;> simp [hw]
  all_goals simp

theorem continuesWord_iff (h : t.IsLexeme) (ht : t.text = ch :: cs) :
    t.kind.continuesWord = true ↔ isWordChar ch = true := by
  rw [Scan.isWordChar_iff_start]
  apply h.forall_start ht
    (P := fun k s => k.continuesWord = true ↔
      s = .word ∨ s = .literal .regex ∨ s = .complete .minus)
  · simp [TokenKind.continuesWord]
  · simp [continuesWord_wordKind]
  · intro k
    cases k <;> simp [TokenKind.continuesWord]
  all_goals simp [TokenKind.continuesWord]

/-- A token that one character completes is told by its first character. -/
theorem kind_eq_iff (h : t.IsLexeme) (ht : t.text = ch :: cs) {d : Char} {k : TokenKind}
    (hd : Scan.start d = .complete k) : t.kind = k ↔ ch = d := by
  have hk := Scan.mem_singles hd
  rw [← Scan.start_eq_complete_iff hd]
  simp only [Scan.singles, List.mem_cons, List.not_mem_nil, or_false] at hk
  rcases hk with rfl | rfl | rfl | rfl | rfl
  all_goals
    apply h.forall_start ht (P := fun k' s => k' = _ ↔ s = .complete _)
    · simp
    · rcases wordKind_eq t.text with hw | ⟨op, hw⟩ <;> simp [hw]
    all_goals simp

/-- A token that one character completes has no other. -/
theorem text_eq_singleton (h : t.IsLexeme) {d : Char} {k : TokenKind}
    (hd : Scan.start d = .complete k) (hk : t.kind = k) : t.text = [d] := by
  obtain ⟨ch, cs, ht⟩ := List.exists_cons_of_ne_nil h.text_ne_nil
  obtain rfl : ch = d := (h.kind_eq_iff ht hd).1 hk
  obtain ⟨s, hs, -⟩ := h.ofText?
  rw [ht, Scan.ofText?, hd] at hs
  cases cs with
  | nil => exact ht
  | cons c cs => simp [Scan.after, Scan.next] at hs

end Token.IsLexeme

namespace Scan

/-- A token that nothing extends can stand before any other. -/
theorem canPrecede_of_complete {c : Char} {k : TokenKind} (h : (start c).Becomes (.complete k))
    (next : TokenKind) : k.canPrecede next = true := by
  have hs := start_mem_starts c
  generalize start c = s at h hs
  simp only [starts, List.mem_cons, List.not_mem_nil, or_false] at hs
  rcases hs with rfl | rfl | rfl | rfl | rfl | rfl | rfl | rfl | rfl | rfl | rfl | rfl <;>
    simp only [Becomes, reduceCtorEq, false_or, complete.injEq] at h <;> subst h <;> rfl

theorem canPrecede_of_angle {c : Char} {a e : Comparison} (h : (start c).Becomes (.angle a e))
    (next : TokenKind) :
    (TokenKind.comparison a).canPrecede next = decide (next ≠ .comparison .equal) := by
  have hs := start_mem_starts c
  generalize start c = s at h hs
  simp only [starts, List.mem_cons, List.not_mem_nil, or_false] at hs
  rcases hs with rfl | rfl | rfl | rfl | rfl | rfl | rfl | rfl | rfl | rfl | rfl | rfl <;>
    simp only [Becomes, reduceCtorEq, or_false, angle.injEq] at h <;> obtain ⟨rfl, rfl⟩ := h <;> rfl

/-- Unless a literal is open, the next token may touch a token just when its first character does
not belong to it. -/
theorem next_eq_none_iff {s : Scan} {a b : Token} {c : Char} {cs : Text}
    (hs : ofText? a.text = some s) (ha : s.tokens a.text = [a]) (hopen : ∀ k, s ≠ .literal k)
    (hb : b.IsLexeme) (hbc : b.text = c :: cs) :
    s.next c = none ↔ a.kind.canPrecede b.kind = true := by
  obtain ⟨d, ds, had⟩ := List.exists_cons_of_ne_nil (ne_nil_of_ofText? hs)
  have hread : ofText? (d :: ds) = some s := by rw [← had, hs]
  have hbecomes : (start d).Becomes s := becomes_of_ofText? hread
  cases s with
  | blank =>
      have hk : a.kind = .blank := Token.kind_of_tokens ha
      have hblank := hb.kind_eq_blank_iff hbc
      simp [next, hk, TokenKind.canPrecede, hblank]
  | word =>
      have hk : a.kind = wordKind a.text := Token.kind_of_tokens ha
      have hword := hb.continuesWord_iff hbc
      rw [hk, canPrecede_wordKind]
      simp [next, ← hword]
  | literal k => exact absurd rfl (hopen k)
  | escape k => exact absurd (congrArg List.length ha) (by simp [tokens])
  | bang =>
      have hk : a.kind = .unknown := Token.kind_of_tokens ha
      have hequal := hb.kind_eq_iff hbc (d := '=') rfl
      simp [next, hk, TokenKind.canPrecede, hequal]
  | angle x e =>
      have hk : a.kind = .comparison x := Token.kind_of_tokens ha
      have hequal := hb.kind_eq_iff hbc (d := '=') rfl
      rw [hk, canPrecede_of_angle hbecomes]
      simp [next, hequal]
  | complete k =>
      have hk : a.kind = k := Token.kind_of_tokens ha
      rw [hk, canPrecede_of_complete hbecomes]
      simp [next]

theorem eq_literal_of_next_escape {s : Scan} {c : Char} {k : LiteralKind}
    (h : s.next c = some (.escape k)) : s = .literal k ∧ c = '\\' := by
  cases s with
  | literal kind =>
      simp only [next] at h
      split at h
      · cases h
      · split at h
        · next hc =>
            cases h
            exact ⟨rfl, hc⟩
        · split at h <;> cases h
  | complete kind => cases h
  | _ =>
      simp only [next] at h
      split at h <;> cases h

/-- After a backslash in a literal, what is behind the backslash is the open literal. -/
theorem ofText?_escape {read : Text} {k : LiteralKind} (h : ofText? read = some (.escape k)) :
    ∃ before, read = before ++ ['\\'] ∧ ofText? before = some (.literal k) := by
  rcases List.eq_nil_or_concat read with rfl | ⟨u, c, rfl⟩
  · cases h
  rw [List.concat_eq_append] at h ⊢
  by_cases hu : u = []
  · -- no character starts just after a backslash
    subst hu
    have hbecomes : (start c).Becomes (.escape k) := becomes_of_ofText? h
    rw [Option.some.inj h] at hbecomes
    exact hbecomes.elim
  · rw [ofText?_append hu, Option.bind_eq_some_iff] at h
    obtain ⟨s, hs, hnext⟩ := h
    have hc : s.next c = some (.escape k) := by
      cases hc : s.next c with
      | none => simp [after, hc] at hnext
      | some s' => simpa [after, hc] using hnext
    obtain ⟨rfl, rfl⟩ := eq_literal_of_next_escape hc
    exact ⟨u, rfl, hs⟩

end Scan

/-- Whether neighbours in a row of tokens may touch. -/
def Touching (ts : List Token) : Prop :=
  ts.IsChain fun a b => a.kind.canPrecede b.kind = true

theorem Touching.of_part {ts us : List Token} (h : Touching ts) (hus : us <:+: ts) :
    Touching us :=
  List.IsChain.infix h hus

/-- The first token of a text begins with the text's first character. -/
theorem exists_first_token (c : Char) (cs : Text) (hlex : ∀ t ∈ tokenize (c :: cs), t.IsLexeme) :
    ∃ b rest ds, tokenize (c :: cs) = b :: rest ∧ b.text = c :: ds := by
  have htext := tokensText_tokenize (c :: cs)
  cases hb : tokenize (c :: cs) with
  | nil =>
      rw [hb] at htext
      cases htext
  | cons b rest =>
      rw [hb, tokensText_cons] at htext
      cases hbt : b.text with
      | nil => exact absurd hbt (hlex b (by simp [hb])).text_ne_nil
      | cons d ds =>
          rw [hbt] at htext
          cases htext
          exact ⟨b, rest, ds, rfl, hbt⟩

namespace Scan

theorem isLexeme_tokens {s : Scan} {read : Text} (hs : ofText? read = some s) :
    ∀ t ∈ s.tokens read, t.IsLexeme := by
  intro t ht
  cases s with
  | escape k =>
      obtain ⟨before, rfl, hbefore⟩ := ofText?_escape hs
      simp only [tokens, List.dropLast_concat, List.mem_cons, List.not_mem_nil, or_false] at ht
      rcases ht with rfl | rfl
      · exact Token.isLexeme_of_ofText? (s := .literal k) hbefore rfl
      · exact Token.isLexeme_of_ofText? (s := .word) rfl rfl
  | _ =>
      obtain rfl := List.mem_singleton.1 ht
      exact Token.isLexeme_of_ofText? hs rfl

/-- The last token made before a character may stand before a token that begins with it. -/
theorem canPrecede_of_next_eq_none {s : Scan} {read cs : Text} {c : Char} {a b : Token}
    (hs : ofText? read = some s) (hc : s.next c = none) (ha : a ∈ (s.tokens read).getLast?)
    (hb : b.IsLexeme) (hbc : b.text = c :: cs) : a.kind.canPrecede b.kind = true := by
  cases s with
  | literal k =>
      obtain rfl : ⟨.literal k, read⟩ = a := by simpa [tokens] using ha
      rfl
  | escape k =>
      -- only a newline ends a literal there, and no word goes on with one
      obtain rfl : ⟨.word, ['\\']⟩ = a := by simpa [tokens] using ha
      obtain rfl : c = '\n' := by
        simp only [next] at hc
        split at hc
        · assumption
        · cases hc
      have hword := hb.continuesWord_iff hbc
      simp only [TokenKind.canPrecede, Bool.not_eq_true']
      rw [Bool.eq_false_iff, ne_eq, hword]
      decide
  | _ =>
      simp only [tokens, List.getLast?_singleton, Option.mem_some_iff] at ha
      subst ha
      exact (next_eq_none_iff hs rfl (by simp) hb hbc).1 hc

theorem touching_tokens (s : Scan) (read : Text) : Touching (s.tokens read) := by
  cases s <;> simp [tokens, Touching, TokenKind.canPrecede]

/-- What is read from a token on is made of lexemes that may touch. -/
theorem lexemes_run {s : Scan} {read : Text} (hs : ofText? read = some s) (t : Text) :
    (∀ x ∈ s.run read t, x.IsLexeme) ∧ Touching (s.run read t) := by
  induction t generalizing s read with
  | nil => exact ⟨isLexeme_tokens hs, touching_tokens s read⟩
  | cons c cs ih =>
      rw [run]
      cases hc : s.next c with
      | some s' =>
          apply ih
          rw [ofText?_append (ne_nil_of_ofText? hs), hs]
          simp [after, hc]
      | none =>
          -- the character starts a token of its own, of which the same is known
          have hrest : (∀ x ∈ tokenize (c :: cs), x.IsLexeme) ∧ Touching (tokenize (c :: cs)) :=
            @ih (start c) [c] rfl
          obtain ⟨b, rest, ds, hb, hbc⟩ := exists_first_token c cs hrest.1
          show (∀ x ∈ s.tokens read ++ tokenize (c :: cs), x.IsLexeme)
            ∧ Touching (s.tokens read ++ tokenize (c :: cs))
          constructor
          · intro x hx
            rcases List.mem_append.1 hx with hx | hx
            · exact isLexeme_tokens hs x hx
            · exact hrest.1 x hx
          · refine (touching_tokens s read).append hrest.2 ?_
            intro a ha x hx
            obtain rfl : b = x := by simpa [hb] using hx
            exact canPrecede_of_next_eq_none hs hc ha (hrest.1 b (by simp [hb])) hbc

end Scan

/-- Every token of a text is read back from its own text. -/
theorem isLexeme_of_mem_tokenize {t : Text} {x : Token} (h : x ∈ tokenize t) : x.IsLexeme := by
  cases t with
  | nil => simp [tokenize] at h
  | cons c cs =>
      have hs : Scan.ofText? [c] = some (Scan.start c) := rfl
      exact (Scan.lexemes_run hs cs).1 x h

/-- The tokens of a text may touch where they do. -/
theorem touching_tokenize (t : Text) : Touching (tokenize t) := by
  cases t with
  | nil => exact List.IsChain.nil
  | cons c cs =>
      have hs : Scan.ofText? [c] = some (Scan.start c) := rfl
      exact (Scan.lexemes_run hs cs).2

/-! ## Closed literals -/

/-- Whether a token is not a literal that lacks its closing mark. -/
def Token.isClosed (t : Token) : Bool :=
  match t.kind with
  | .literal k => isClosedLiteral k t.text
  | _ => true

/-- The number of backslashes at the end of a text. -/
def trailingBackslashes (t : Text) : Nat :=
  (t.reverse.takeWhile (· = '\\')).length

theorem trailingBackslashes_concat (t : Text) (c : Char) :
    trailingBackslashes (t ++ [c]) = if c = '\\' then trailingBackslashes t + 1 else 0 := by
  by_cases h : c = '\\' <;> simp [trailingBackslashes, h]

theorem LiteralKind.mark_ne_backslash (k : LiteralKind) : k.mark ≠ '\\' := by
  cases k <;> decide

/-- In an open literal the backslashes at the end come in pairs, unless the last of them waits for
its character, and a mark at the end is escaped. -/
theorem Scan.backslashes_after {k : LiteralKind} {t : Text} {s : Scan}
    (h : (Scan.literal k).after t = some s) :
    (s = .literal k → trailingBackslashes t % 2 = 0 ∧
      (t.getLast? = some k.mark → trailingBackslashes t.dropLast % 2 = 1)) ∧
    (s = .escape k → trailingBackslashes t % 2 = 1) := by
  induction t using List.reverseRecOn generalizing s with
  | nil =>
      cases h
      simp [trailingBackslashes]
  | append_singleton u c ih =>
      rw [after_append, Option.bind_eq_some_iff] at h
      obtain ⟨s₀, hu, hc⟩ := h
      have hnext : s₀.next c = some s := by
        cases hn : s₀.next c with
        | none => simp [after, hn] at hc
        | some s' => simpa [after, hn] using hc
      -- each character more changes the parity by what it is and by how the literal stood
      obtain ⟨heven, hodd⟩ := ih hu
      have hbecomes : (Scan.literal k).Becomes s₀ := becomes_after (Or.inl rfl) hu
      rw [trailingBackslashes_concat, List.getLast?_concat, List.dropLast_concat]
      rcases hbecomes with rfl | rfl | rfl
      · have hpairs := (heven rfl).1
        simp only [next] at hnext
        split at hnext
        · cases hnext
          simp
        · next hmark =>
            split at hnext
            · next hslash =>
                cases hnext
                simp only [hslash, if_true, reduceCtorEq, false_implies, true_and, true_implies]
                omega
            · next hslash =>
                split at hnext <;> cases hnext
                simp [hslash, hmark]
      · have hwaits := hodd rfl
        simp only [next] at hnext
        split at hnext <;> cases hnext
        by_cases hslash : c = '\\'
        · have hmark := k.mark_ne_backslash
          simp only [hslash, if_true, Option.some.injEq, hmark.symm, reduceCtorEq, false_implies,
            and_true, true_implies]
          omega
        · simp [hslash, hwaits]
      · cases hnext

/-- An open literal is not closed: a mark at its end follows an odd number of backslashes. -/
theorem isClosedLiteral_of_open {k : LiteralKind} {t : Text}
    (h : Scan.ofText? t = some (.literal k)) : isClosedLiteral k t = false := by
  cases t with
  | nil => rfl
  | cons c cs =>
      have hstart : Scan.start c = .literal k := by
        have hbecomes := Scan.becomes_of_ofText? h
        have hs := Scan.start_mem_starts c
        generalize Scan.start c = s at hbecomes hs
        simp only [Scan.starts, List.mem_cons, List.not_mem_nil, or_false] at hs
        rcases hs with rfl | rfl | rfl | rfl | rfl | rfl | rfl | rfl | rfl | rfl | rfl | rfl <;>
          simp_all [Scan.Becomes]
      rw [Scan.ofText?, hstart] at h
      have hback := ((Scan.backslashes_after h).1 rfl).2
      simp only [isClosedLiteral]
      by_cases hlast : cs.getLast? = some k.mark
      · have hodd : (cs.dropLast.reverse.takeWhile (· = '\\')).length % 2 = 1 := hback hlast
        simp [hodd]
      · simp [hlast]

/-! ## Rows of closed lexemes -/

/-- Closed lexemes side by side, of which neighbours may touch. -/
structure Lexed (ts : List Token) : Prop where
  lexeme : ∀ t ∈ ts, t.IsLexeme
  closed : ∀ t ∈ ts, t.isClosed = true
  touching : Touching ts

namespace Lexed

variable {ts us : List Token}

theorem nil : Lexed [] :=
  ⟨by simp, by simp, List.IsChain.nil⟩

theorem of_part (h : Lexed ts) (hus : us <:+: ts) : Lexed us :=
  ⟨fun t ht => h.lexeme t (hus.subset ht), fun t ht => h.closed t (hus.subset ht),
    h.touching.of_part hus⟩

theorem append (ht : Lexed ts) (hu : Lexed us)
    (h : ∀ a ∈ ts.getLast?, ∀ b ∈ us.head?, a.kind.canPrecede b.kind = true) :
    Lexed (ts ++ us) := by
  refine ⟨?_, ?_, ht.touching.append hu.touching h⟩
  · intro t hmem
    rcases List.mem_append.1 hmem with hmem | hmem
    · exact ht.lexeme t hmem
    · exact hu.lexeme t hmem
  · intro t hmem
    rcases List.mem_append.1 hmem with hmem | hmem
    · exact ht.closed t hmem
    · exact hu.closed t hmem

theorem tokensText_ne_nil {t : Token} (h : Lexed (t :: ts)) : tokensText (t :: ts) ≠ [] := by
  rw [tokensText_cons]
  exact List.append_ne_nil_of_left_ne_nil (h.lexeme t (by simp)).text_ne_nil _

/-- **A row of closed lexemes that may touch is read back token by token.** -/
theorem tokenize_tokensText (h : Lexed ts) : tokenize (tokensText ts) = ts := by
  induction ts with
  | nil => rfl
  | cons t ts ih =>
      have hts : Lexed ts := h.of_part (List.suffix_cons t ts).isInfix
      have hlex := h.lexeme t (by simp)
      obtain ⟨s, hs, hmade⟩ := hlex.ofText?
      -- reading the first token stops where the next one begins, since it is no open literal
      have hopen : ∀ k, s ≠ .literal k := by
        rintro k rfl
        have hk : t.kind = .literal k := Token.kind_of_tokens hmade
        have hclosed := h.closed t (by simp)
        simp [Token.isClosed, hk, isClosedLiteral_of_open hs] at hclosed
      have hstop : ∀ c ∈ (tokensText ts).head?, s.next c = none := by
        intro c hc
        cases ts with
        | nil => cases hc
        | cons u us =>
            obtain ⟨d, ds, hu⟩ := List.exists_cons_of_ne_nil (h.lexeme u (by simp)).text_ne_nil
            obtain rfl : d = c := by simpa [hu] using hc
            exact (Scan.next_eq_none_iff hs hmade hopen (h.lexeme u (by simp)) hu).2
              (List.isChain_cons_cons.1 h.touching).1
      obtain ⟨c, cs, htext⟩ := List.exists_cons_of_ne_nil hlex.text_ne_nil
      rw [htext] at hs hmade
      rw [tokensText_cons, htext, List.cons_append, tokenize, Scan.run_after (u := cs) hs,
        Scan.run_stop hstop, ih hts]
      show s.tokens (c :: cs) ++ ts = t :: ts
      rw [hmade, List.singleton_append]

end Lexed

end CardQuery
