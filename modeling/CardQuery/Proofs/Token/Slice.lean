import CardQuery.Proofs.Token.Lexeme

/-!
# Reading a part of a text

Where a token ends depends on the character after it alone, and the end of the text ends it as
well. The one token that looks further is an open literal before a backslash: the backslash is a
word of its own because a newline follows it, or nothing.

Main statements: a run of tokens of a text is read back from its own text, whatever stood around it
(`tokenize_tokensText_of_part`), each token as far from the run's start as it was in the text, and
neighbours stay apart (`slice_reads_back`).
-/

set_option autoImplicit false

namespace CardQuery

/-- Rows of tokens of which each ends where the next begins. -/
inductive Adjoining : List Token → Prop
  | nil : Adjoining []
  | token {a : Token} {s : Scan} {ts : List Token} (hs : Scan.ofText? a.text = some s)
      (ha : s.tokens a.text = [a]) (hstop : ∀ c ∈ (tokensText ts).head?, s.next c = none)
      (rest : Adjoining ts) : Adjoining (a :: ts)
  | escape {k : LiteralKind} {read : Text} {ts : List Token}
      (hs : Scan.ofText? read = some (.literal k)) (hstop : ∀ c ∈ (tokensText ts).head?, c = '\n')
      (rest : Adjoining ts) : Adjoining (⟨.literal k, read⟩ :: ⟨.word, ['\\']⟩ :: ts)

/-- A text that is read on from one of its tokens. -/
theorem Scan.tokenize_append {u : Text} {s : Scan} (hs : ofText? u = some s) {t : Text}
    (hstop : ∀ c ∈ t.head?, s.next c = none) : tokenize (u ++ t) = s.tokens u ++ tokenize t := by
  obtain ⟨c, cs, rfl⟩ := List.exists_cons_of_ne_nil (ne_nil_of_ofText? hs)
  rw [List.cons_append, tokenize, run_after (u := cs) hs, run_stop hstop]
  rfl

/-- An open literal goes on with a backslash. -/
theorem Scan.ofText?_concat_backslash {read : Text} {k : LiteralKind}
    (hs : ofText? read = some (.literal k)) : ofText? (read ++ ['\\']) = some (.escape k) := by
  rw [ofText?_append (ne_nil_of_ofText? hs), hs]
  simp [after, next, k.mark_ne_backslash.symm]

/-- After a backslash, only a newline ends a literal. -/
theorem Scan.next_escape_eq_none_iff {k : LiteralKind} {c : Char} :
    (Scan.escape k).next c = none ↔ c = '\n' := by
  simp [next]

namespace Adjoining

variable {ts us : List Token}

/-- **Such a row is read back token by token.** -/
theorem tokenize_tokensText (h : Adjoining ts) : tokenize (tokensText ts) = ts := by
  induction h with
  | nil => rfl
  | token hs ha hstop rest ih =>
      rw [tokensText_cons, Scan.tokenize_append hs hstop, ha, ih, List.singleton_append]
  | @escape k read ts hs hstop rest ih =>
      have hread := Scan.ofText?_concat_backslash hs
      have hend : ∀ c ∈ (tokensText ts).head?, (Scan.escape k).next c = none :=
        fun c hc => Scan.next_escape_eq_none_iff.2 (hstop c hc)
      have htext : tokensText (⟨.literal k, read⟩ :: ⟨.word, ['\\']⟩ :: ts)
          = (read ++ ['\\']) ++ tokensText ts := by
        simp
      rw [htext, Scan.tokenize_append hread hend, ih]
      simp [Scan.tokens]

/-- A word that is a backslash ends before a newline. -/
theorem backslash (hstop : ∀ c ∈ (tokensText ts).head?, c = '\n') (h : Adjoining ts) :
    Adjoining (⟨.word, ['\\']⟩ :: ts) := by
  refine .token (s := .word) rfl rfl (fun c hc => ?_) h
  rw [hstop c hc]
  decide

theorem of_append_left (h : Adjoining (ts ++ us)) : Adjoining ts := by
  have hhead : ∀ {vs : List Token} {c : Char}, c ∈ (tokensText vs).head? →
      c ∈ (tokensText (vs ++ us)).head? := by
    intro vs c hc
    rw [tokensText_append, List.head?_append, Option.mem_def.1 hc]
    rfl
  -- the row may end anywhere, also between an open literal and its backslash
  generalize hrow : ts ++ us = row at h
  induction h generalizing ts with
  | nil =>
      obtain ⟨rfl, -⟩ := List.append_eq_nil_iff.1 hrow
      exact .nil
  | token hs ha hstop rest ih =>
      cases ts with
      | nil => exact .nil
      | cons t ts =>
          cases hrow
          exact .token hs ha (fun c hc => hstop c (hhead hc)) (ih rfl)
  | escape hs hstop rest ih =>
      cases ts with
      | nil => exact .nil
      | cons t ts =>
          cases ts with
          | nil =>
              cases hrow
              exact .token hs rfl (by simp) .nil
          | cons t' ts =>
              cases hrow
              exact .escape hs (fun c hc => hstop c (hhead hc)) (ih rfl)

theorem of_append_right (h : Adjoining (ts ++ us)) : Adjoining us := by
  induction ts with
  | nil => exact h
  | cons t ts ih =>
      apply ih
      rw [List.cons_append] at h
      generalize ts ++ us = row at h
      cases h with
      | token hs ha hstop rest => exact rest
      | escape hs hstop rest => exact rest.backslash hstop

theorem of_part (h : Adjoining ts) (hus : us <:+: ts) : Adjoining us := by
  obtain ⟨before, behind, rfl⟩ := hus
  exact h.of_append_left.of_append_right

end Adjoining

/-- What is read from a token on is a row of which each token ends where the next begins. -/
theorem Scan.adjoining_run {s : Scan} {read : Text} (hs : ofText? read = some s) (t : Text) :
    Adjoining (s.run read t) := by
  -- the tokens that are made where a reading stops, in front of what is read from there on
  have hmade : ∀ {s : Scan} {read : Text} {ts : List Token}, ofText? read = some s →
      (∀ c ∈ (tokensText ts).head?, s.next c = none) → Adjoining ts →
      Adjoining (s.tokens read ++ ts) := by
    intro s read ts hs hstop hts
    cases s with
    | escape k =>
        obtain ⟨before, rfl, hbefore⟩ := ofText?_escape hs
        rw [tokens, List.dropLast_concat]
        exact .escape hbefore (fun c hc => next_escape_eq_none_iff.1 (hstop c hc)) hts
    | _ => exact .token hs rfl hstop hts
  induction t generalizing s read with
  | nil => simpa [run] using @hmade s read [] hs (by simp) .nil
  | cons c cs ih =>
      rw [run]
      cases hc : s.next c with
      | some s' =>
          apply ih
          rw [ofText?_append (ne_nil_of_ofText? hs), hs]
          simp [after, hc]
      | none =>
          have htext : tokensText ((start c).run [c] cs) = c :: cs := by
            simpa using tokensText_run (fits_start c) cs
          refine hmade hs (fun d hd => ?_) (ih rfl)
          obtain rfl : c = d := by simpa [htext] using hd
          exact hc

theorem adjoining_tokenize (t : Text) : Adjoining (tokenize t) := by
  cases t with
  | nil => exact .nil
  | cons c cs => exact @Scan.adjoining_run (Scan.start c) [c] rfl cs

/-- **A run of tokens of a text is read back from its own text.** -/
theorem tokenize_tokensText_of_part {t : Text} {ts : List Token} (h : ts <:+: tokenize t) :
    tokenize (tokensText ts) = ts :=
  ((adjoining_tokenize t).of_part h).tokenize_tokensText

/-! ## Neighbours -/

section Neighbours

variable {t : Text} {a b : Token}

/-- No token of any text has the text of two neighbours put together. -/
theorem text_ne_of_neighbours (h : [a, b] <:+: tokenize t) {u : Text} {x : Token}
    (hx : x ∈ tokenize u) : x.text ≠ a.text ++ b.text := by
  intro htext
  have hone : tokenize x.text = [x] := isLexeme_of_mem_tokenize hx
  have htwo : tokenize (a.text ++ b.text) = [a, b] := by
    simpa using tokenize_tokensText_of_part h
  rw [htext, htwo] at hone
  cases hone

theorem canPrecede_of_neighbours (h : [a, b] <:+: tokenize t) :
    a.kind.canPrecede b.kind = true := by
  have htouch : Touching [a, b] := (touching_tokenize t).of_part h
  simpa [Touching] using htouch

end Neighbours

namespace TokenKind

theorem canPrecede_blank_eq_true_iff {k : TokenKind} :
    TokenKind.blank.canPrecede k = true ↔ k ≠ .blank := by
  simp [canPrecede]

/-- What cannot follow a word cannot follow a keyword either. -/
theorem canPrecede_eq_true_iff_of_word {k next : TokenKind}
    (hk : k ∈ [.word, .keyword .and, .keyword .or]) :
    k.canPrecede next = true ↔
      next ∉ [.word, .keyword .and, .keyword .or, .minus, .literal .regex] := by
  have hcan : k.canPrecede next = !next.continuesWord := by
    simp only [List.mem_cons, List.not_mem_nil, or_false] at hk
    rcases hk with rfl | rfl | rfl <;> rfl
  rw [hcan]
  cases next with
  | literal kind => cases kind <;> simp [continuesWord]
  | keyword op => cases op <;> simp [continuesWord]
  | _ => simp [continuesWord]

end TokenKind

/-! ## Placed tokens -/

/-- The same token `n` bytes further on. -/
def PlacedToken.shift (n : Nat) (p : PlacedToken) : PlacedToken :=
  ⟨p.token, n + p.start⟩

/-- The text of a row of placed tokens. -/
def placedText (ps : List PlacedToken) : Text :=
  tokensText (ps.map PlacedToken.token)

theorem map_shift_placeTokens (n start : Nat) (ts : List Token) :
    (placeTokens start ts).map (PlacedToken.shift n) = placeTokens (n + start) ts := by
  induction ts generalizing start with
  | nil => rfl
  | cons t ts ih =>
      rw [placeTokens, placeTokens, List.map_cons, ih, Nat.add_assoc]
      rfl

theorem map_token_placeTokens (start : Nat) (ts : List Token) :
    (placeTokens start ts).map PlacedToken.token = ts := by
  induction ts generalizing start with
  | nil => rfl
  | cons t ts ih => rw [placeTokens, List.map_cons, ih]

theorem length_placeTokens (start : Nat) (ts : List Token) :
    (placeTokens start ts).length = ts.length := by
  simpa using congrArg List.length (map_token_placeTokens start ts)

section Run

variable {start : Nat} {ts : List Token} {before run behind : List PlacedToken}

theorem eq_append_of_placeTokens (h : placeTokens start ts = before ++ run ++ behind) :
    ts = before.map PlacedToken.token ++ run.map PlacedToken.token
      ++ behind.map PlacedToken.token := by
  rw [← map_token_placeTokens start ts, h, List.map_append, List.map_append]

/-- A run of placed tokens begins where the tokens in front of it end. -/
theorem eq_placeTokens_of_append (h : placeTokens start ts = before ++ run ++ behind) :
    run = placeTokens (start + (placedText before).width) (run.map PlacedToken.token) := by
  rw [eq_append_of_placeTokens h, placeTokens_append, placeTokens_append, ← width_tokensText] at h
  -- the placed tokens and the three parts are cut at the same lengths
  have hfront := List.append_inj_left h (by simp [length_placeTokens])
  exact (List.append_inj_right hfront (by simp [length_placeTokens])).symm

end Run

/-- **Tokens are stable under slicing.** The tokens read from the text of a run are the tokens of
the run, each as far from the start of that text as it was from the start of the run, whatever stood
in front of the run and behind it. So neighbours are never read as one token, in whatever text they
stand: no blank follows a blank, and nothing that a word would take in follows a word or a
keyword. -/
theorem slice_reads_back {t : Text} {before run behind : List PlacedToken}
    (h : placeTokens 0 (tokenize t) = before ++ run ++ behind) :
    t = placedText before ++ placedText run ++ placedText behind ∧
      (∀ p ∈ run.head?, p.start = (placedText before).width) ∧
      run = (placeTokens 0 (tokenize (placedText run))).map
        (PlacedToken.shift (placedText before).width) ∧
      ∀ a b : Token, [a, b] <:+: run.map PlacedToken.token →
        (∀ u : Text, ∀ x ∈ tokenize u, x.text ≠ a.text ++ b.text) ∧
        (a.kind = .blank → b.kind ≠ .blank) ∧
        (a.kind ∈ [.word, .keyword .and, .keyword .or] →
          b.kind ∉ [.word, .keyword .and, .keyword .or, .minus, .literal .regex]) := by
  have hrow := eq_append_of_placeTokens h
  have hpart : run.map PlacedToken.token <:+: tokenize t := ⟨_, _, hrow.symm⟩
  have hread : tokenize (placedText run) = run.map PlacedToken.token :=
    tokenize_tokensText_of_part hpart
  have hplaced := eq_placeTokens_of_append h
  rw [Nat.zero_add] at hplaced
  refine ⟨?_, ?_, ?_, ?_⟩
  · rw [← tokensText_tokenize t, hrow, tokensText_append, tokensText_append]
    rfl
  · intro p hp
    cases run with
    | nil => cases hp
    | cons q run =>
        obtain rfl : q = p := Option.some.inj hp
        exact congrArg PlacedToken.start (List.cons.inj hplaced).1
  · rw [hread, map_shift_placeTokens, Nat.add_zero]
    exact hplaced
  · intro a b hab
    have hneighbours : [a, b] <:+: tokenize t := hab.trans hpart
    have hcan := canPrecede_of_neighbours hneighbours
    refine ⟨fun u x hx => text_ne_of_neighbours hneighbours hx, fun ha => ?_, fun ha => ?_⟩
    · rw [ha] at hcan
      exact TokenKind.canPrecede_blank_eq_true_iff.1 hcan
    · exact (TokenKind.canPrecede_eq_true_iff_of_word ha).1 hcan

/-- A run that ends between an open string and a backslash that escapes nothing. Its own text gives
the string back, and the keyword in it stays apart from the blank behind it. -/
theorem slice_reads_back_open_string :
    placeTokens 0 (tokenize "c>=2 or \"x\\".toList)
        = [⟨⟨.word, ['c']⟩, 0⟩, ⟨⟨.comparison .greaterEqual, ['>', '=']⟩, 1⟩, ⟨⟨.word, ['2']⟩, 3⟩]
          ++ [⟨⟨.blank, [' ']⟩, 4⟩, ⟨⟨.keyword .or, ['o', 'r']⟩, 5⟩, ⟨⟨.blank, [' ']⟩, 7⟩,
            ⟨⟨.literal .string, ['"', 'x']⟩, 8⟩]
          ++ [⟨⟨.word, ['\\']⟩, 10⟩] ∧
      [⟨⟨.blank, [' ']⟩, 4⟩, ⟨⟨.keyword .or, ['o', 'r']⟩, 5⟩, ⟨⟨.blank, [' ']⟩, 7⟩,
          ⟨⟨.literal .string, ['"', 'x']⟩, 8⟩]
        = (placeTokens 0 (tokenize [' ', 'o', 'r', ' ', '"', 'x'])).map (PlacedToken.shift 4) ∧
      ∀ u : Text, ∀ x ∈ tokenize u, x.text ≠ ['o', 'r', ' '] := by
  have hplaced : placeTokens 0 (tokenize "c>=2 or \"x\\".toList)
      = [⟨⟨.word, ['c']⟩, 0⟩, ⟨⟨.comparison .greaterEqual, ['>', '=']⟩, 1⟩, ⟨⟨.word, ['2']⟩, 3⟩]
        ++ [⟨⟨.blank, [' ']⟩, 4⟩, ⟨⟨.keyword .or, ['o', 'r']⟩, 5⟩, ⟨⟨.blank, [' ']⟩, 7⟩,
          ⟨⟨.literal .string, ['"', 'x']⟩, 8⟩]
        ++ [⟨⟨.word, ['\\']⟩, 10⟩] := by
    decide +kernel
  obtain ⟨-, -, hread, happart⟩ := slice_reads_back hplaced
  have hneighbours : [(⟨.keyword .or, ['o', 'r']⟩ : Token), ⟨.blank, [' ']⟩]
      <:+: [⟨.blank, [' ']⟩, ⟨.keyword .or, ['o', 'r']⟩, ⟨.blank, [' ']⟩,
        ⟨.literal .string, ['"', 'x']⟩] :=
    ⟨[⟨.blank, [' ']⟩], [⟨.literal .string, ['"', 'x']⟩], rfl⟩
  exact ⟨hplaced, hread, (happart _ _ hneighbours).1⟩

end CardQuery
