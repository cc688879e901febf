import CardQuery.Proofs.Token.Lexeme

/-!
# Where a literal is closed

Whether a literal is closed can be told from its end, by the backslashes before its last mark, or
from its start, by the first mark that no backslash escapes. For a text in general the two differ,
as the text can go on behind the mark that closes it. A lexeme never goes on there.

Main statement: for a lexeme the two readings agree (`Token.IsLexeme.isClosedLiteral_eq`).
-/

set_option autoImplicit false

namespace CardQuery

/-- Whether the first mark of a text that no backslash escapes is its last character. `escaped`
tells whether a backslash escapes the first character. -/
def endsAtMark (mark : Char) (escaped : Bool) : Text → Bool
  | [] => false
  | c :: cs =>
    if escaped then endsAtMark mark false cs
    else if c = mark then cs.isEmpty
    else endsAtMark mark (c = '\\') cs

/-- Whether a text begins with the mark of a literal and ends with the first mark behind it that
no backslash escapes. -/
def isTerminated (kind : LiteralKind) (t : Text) : Bool :=
  t.head? = some kind.mark && endsAtMark kind.mark false t.tail

namespace Scan

/-- Nothing is read behind a complete token. -/
theorem after_complete {k : TokenKind} {u : Text} {s : Scan}
    (h : (complete k).after u = some s) : u = [] ∧ s = .complete k := by
  cases u with
  | nil => exact ⟨rfl, (Option.some.inj h).symm⟩
  | cons c cs => simp [after, next] at h

/-- Reading on in an open literal completes it just when it ends at its mark. -/
theorem endsAtMark_of_after {k : LiteralKind} {u : Text} :
    (∀ s, (literal k).after u = some s →
      endsAtMark k.mark false u = decide (s = .complete (.literal k))) ∧
    (∀ s, (escape k).after u = some s →
      endsAtMark k.mark true u = decide (s = .complete (.literal k))) := by
  induction u with
  | nil =>
      constructor <;> intro s h <;> cases h <;> simp [endsAtMark]
  | cons c cs ih =>
      obtain ⟨hliteral, hescape⟩ := ih
      constructor <;> intro s h
      · rw [after, Option.bind_eq_some_iff] at h
        obtain ⟨s₁, hnext, hrest⟩ := h
        simp only [next] at hnext
        split at hnext
        · next hmark =>
            cases hnext
            obtain ⟨rfl, rfl⟩ := after_complete hrest
            simp [endsAtMark, hmark]
        · next hmark =>
            split at hnext
            · next hslash =>
                cases hnext
                have hmore := hescape s hrest
                rw [endsAtMark, if_neg (by simp), if_neg hmark, decide_eq_true hslash, hmore]
            · next hslash =>
                split at hnext <;> cases hnext
                simpa [endsAtMark, hmark, hslash] using hliteral s hrest
      · rw [after, Option.bind_eq_some_iff] at h
        obtain ⟨s₁, hnext, hrest⟩ := h
        simp only [next] at hnext
        split at hnext <;> cases hnext
        simpa [endsAtMark] using hliteral s hrest

/-- A literal is completed by its mark. -/
theorem eq_concat_of_after_complete {k : LiteralKind} {u : Text}
    (h : (literal k).after u = some (.complete (.literal k))) :
    ∃ v, u = v ++ [k.mark] ∧ (literal k).after v = some (.literal k) := by
  cases u using List.reverseRecOn with
  | nil => cases h
  | append_singleton v c =>
      rw [after_append, Option.bind_eq_some_iff] at h
      obtain ⟨s, hv, hc⟩ := h
      rw [after, Option.bind_eq_some_iff] at hc
      obtain ⟨s', hnext, hs'⟩ := hc
      cases hs'
      have hbecomes : (literal k).Becomes s := becomes_after (Or.inl rfl) hv
      rcases hbecomes with rfl | rfl | rfl
      · simp only [next] at hnext
        split at hnext
        · next hmark => exact ⟨v, by rw [hmark], hv⟩
        · split at hnext
          · cases hnext
          · split at hnext <;> cases hnext
      · simp only [next] at hnext
        split at hnext <;> cases hnext
      · cases hnext

theorem start_mark (k : LiteralKind) : start k.mark = .literal k := by
  cases k <;> rfl

theorem eq_mark_of_start {c : Char} {k : LiteralKind} (h : start c = .literal k) : c = k.mark := by
  unfold start at h
  split at h
  · cases h
  · split at h <;> cases h <;> rfl

end Scan

theorem wordKind_ne_literal (t : Text) (k : LiteralKind) : wordKind t ≠ .literal k := by
  rcases wordKind_eq t with h | ⟨op, h⟩ <;> simp [h]

namespace Token.IsLexeme

/-- A literal's lexeme begins with its mark, and is still open or just completed. -/
theorem after_of_literal {t : Token} {k : LiteralKind} (h : t.IsLexeme)
    (hk : t.kind = .literal k) :
    ∃ cs, t.text = k.mark :: cs ∧ ((Scan.literal k).after cs = some (.literal k) ∨
      (Scan.literal k).after cs = some (.complete (.literal k))) := by
  obtain ⟨s, hs, hmade⟩ := h.ofText?
  obtain ⟨c, cs, htext⟩ := List.exists_cons_of_ne_nil h.text_ne_nil
  have hkind := h.kind_of_start htext
  have hmem := Scan.start_mem_starts c
  -- only a mark starts a literal
  have hstart : Scan.start c = .literal k := by
    generalize Scan.start c = s₀ at hkind hmem ⊢
    simp only [Scan.starts, List.mem_cons, List.not_mem_nil, or_false] at hmem
    rcases hmem with rfl | rfl | rfl | rfl | rfl | rfl | rfl | rfl | rfl | rfl | rfl | rfl <;>
      simp_all [wordKind_ne_literal]
  rw [htext, Scan.ofText?, hstart] at hs
  refine ⟨cs, by rw [htext, Scan.eq_mark_of_start hstart], ?_⟩
  have hbecomes : (Scan.literal k).Becomes s := Scan.becomes_after (Or.inl rfl) hs
  rcases hbecomes with rfl | rfl | rfl
  · exact Or.inl hs
  · exact absurd (congrArg List.length hmade) (by simp [Scan.tokens])
  · exact Or.inr hs

/-- **A lexeme is closed just when the first mark in it that no backslash escapes is at its end.**
-/
theorem isClosedLiteral_eq {t : Token} {k : LiteralKind} (h : t.IsLexeme)
    (hk : t.kind = .literal k) : isClosedLiteral k t.text = isTerminated k t.text := by
  obtain ⟨cs, htext, hopen | hclosed⟩ := h.after_of_literal hk
  · have hscan : endsAtMark k.mark false cs = false := by
      simpa using Scan.endsAtMark_of_after.1 _ hopen
    have hback : isClosedLiteral k (k.mark :: cs) = false :=
      isClosedLiteral_of_open (by rw [Scan.ofText?, Scan.start_mark, hopen])
    rw [htext, hback, isTerminated, List.tail_cons, hscan, Bool.and_false]
  · have hscan : endsAtMark k.mark false cs = true := by
      simpa using Scan.endsAtMark_of_after.1 _ hclosed
    obtain ⟨v, rfl, hv⟩ := Scan.eq_concat_of_after_complete hclosed
    have heven : (v.reverse.takeWhile (· = '\\')).length % 2 = 0 :=
      ((Scan.backslashes_after hv).1 rfl).1
    have hback : isClosedLiteral k (k.mark :: (v ++ [k.mark])) = true := by
      simp [isClosedLiteral, heven]
    rw [htext, hback, isTerminated, List.tail_cons, hscan, Bool.and_true]
    simp

/-- A literal's lexeme is closed just when its text is terminated. -/
theorem isClosed_eq {t : Token} {k : LiteralKind} (h : t.IsLexeme) (hk : t.kind = .literal k) :
    t.isClosed = isTerminated k t.text := by
  rw [← h.isClosedLiteral_eq hk, Token.isClosed, hk]

end Token.IsLexeme

end CardQuery
