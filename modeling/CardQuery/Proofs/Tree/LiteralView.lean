import CardQuery.Proofs.Editor.Written
import CardQuery.Proofs.Expr.Terms
import CardQuery.Proofs.Parse.Formed

/-!
# What a literal says

A literal says what stands between its marks, or all behind the first mark when no other closes it.
Its reader looks for the closing mark at the end of the literal, and goes wrong at two places where
a backslash stands before that mark. In a closed string it takes an escaped backslash for one that
escapes the quote, and keeps the quote. In an open regular expression it takes a slash that is
escaped for the closing one, and drops it.

Main statement: what is read in the literals of a text, closed or not (`literal_views`).
-/

set_option autoImplicit false

namespace CardQuery

/-- What stands in a literal: all behind its opening mark, without the closing mark if there is
one. -/
def LiteralKind.inner (kind : LiteralKind) (t : Text) : Text :=
  if isTerminated kind t then t.tail.dropLast else t.tail

/-! ## One literal -/

/-- A mark at the end of an open literal stands behind a backslash. -/
theorem Scan.getLast?_dropLast_of_after {k : LiteralKind} {u : Text}
    (h : (literal k).after u = some (.literal k)) (hlast : u.getLast? = some k.mark) :
    u.dropLast.getLast? = some '\\' := by
  have hodd := ((backslashes_after h).1 rfl).2 hlast
  cases hu : u.dropLast using List.reverseRecOn with
  | nil => simp [hu, trailingBackslashes] at hodd
  | append_singleton v c =>
      rw [hu, trailingBackslashes_concat] at hodd
      split at hodd
      · next hc => rw [List.getLast?_concat, hc]
      · cases hodd

namespace Token.IsLexeme

variable {t : Token} {k : LiteralKind}

/-- A literal's lexeme is closed by a mark behind what can be read in it, or goes on to its end. -/
theorem closed_or_open (h : t.IsLexeme) (hk : t.kind = .literal k) :
    (isTerminated k t.text = true ∧ ∃ v, t.text = k.mark :: (v ++ [k.mark]) ∧
      (Scan.literal k).after v = some (.literal k)) ∨
    (isTerminated k t.text = false ∧ ∃ v, t.text = k.mark :: v ∧
      (Scan.literal k).after v = some (.literal k)) := by
  obtain ⟨cs, htext, hopen | hclosed⟩ := h.after_of_literal hk
  · have hend : endsAtMark k.mark false cs = false := by
      simpa using Scan.endsAtMark_of_after.1 _ hopen
    exact Or.inr ⟨by simp [isTerminated, htext, hend], cs, htext, hopen⟩
  · have hend : endsAtMark k.mark false cs = true := by
      simpa using Scan.endsAtMark_of_after.1 _ hclosed
    obtain ⟨v, rfl, hv⟩ := Scan.eq_concat_of_after_complete hclosed
    exact Or.inl ⟨by simp [isTerminated, htext, hend], v, htext, hv⟩

theorem stringContents_eq (h : t.IsLexeme) (hk : t.kind = .literal .string) :
    stringContents t.text = unescape (LiteralKind.string.inner t.text) ++
      if isTerminated .string t.text = true ∧
        (LiteralKind.string.inner t.text).getLast? = some '\\' then ['"'] else [] := by
  rcases h.closed_or_open hk with ⟨hclosed, v, htext, hv⟩ | ⟨hopen, v, htext, hv⟩
  · have hinner : LiteralKind.string.inner t.text = v := by
      rw [LiteralKind.inner, if_pos hclosed, htext, List.tail_cons, List.dropLast_concat]
    have hcontents : stringContents t.text
        = unescape v ++ if v.getLast? = some '\\' then ['"'] else [] := by
      rw [htext]
      exact stringContents_closed hv
    simp [hcontents, hinner, hclosed]
  · have hinner : LiteralKind.string.inner t.text = v := by
      rw [LiteralKind.inner, hopen, htext]
      rfl
    -- a quote at the end is escaped, and is kept as it should be
    have hkept : ¬ (v.getLast? = some '"' ∧ ¬ ['\\', '"'].isSuffixOf v = true) := by
      rintro ⟨hlast, hsuffix⟩
      obtain ⟨u, hu⟩ := List.getLast?_eq_some_iff.1 (Scan.getLast?_dropLast_of_after hv hlast)
      refine hsuffix (List.isSuffixOf_iff_suffix.2 ⟨u, ?_⟩)
      rw [← List.dropLast_append_getLast? _ hlast, hu]
      simp
    have hdrop : dropOpening '"' t.text = v := by rw [htext]; rfl
    rw [stringContents, hdrop, if_neg hkept, hinner]
    simp [hopen]

theorem regexPattern_eq (h : t.IsLexeme) (hk : t.kind = .literal .regex) :
    regexPattern t.text =
      if isTerminated .regex t.text = false ∧
          (LiteralKind.regex.inner t.text).getLast? = some '/'
        then (LiteralKind.regex.inner t.text).dropLast else LiteralKind.regex.inner t.text := by
  rcases h.closed_or_open hk with ⟨hclosed, v, htext, -⟩ | ⟨hopen, v, htext, -⟩
  · have hdrop : dropOpening '/' t.text = v ++ ['/'] := by rw [htext]; rfl
    rw [regexPattern, hdrop, LiteralKind.inner, if_pos hclosed, htext]
    simp [htext ▸ hclosed]
  · have hdrop : dropOpening '/' t.text = v := by rw [htext]; rfl
    rw [regexPattern, hdrop, LiteralKind.inner, hopen, htext]
    simp

end Token.IsLexeme

/-! ## The literals of a text -/

/-- A literal of a text is a single lexeme. -/
theorem exists_lexeme_of_literal {t : Text} {f : Focus} {k : LiteralKind}
    (hf : f ∈ (parse t).nodes) (hk : f.tree.isKind (.literal k) = true) :
    ∃ x : Token, x.IsLexeme ∧ x.kind = .literal k ∧ f.tree.text = x.text := by
  have hformed := Tree.all_of_mem_focuses
    (outerOrFormed_parseTokens fun x hx => isLexeme_of_mem_tokenize hx) (List.mem_filter.1 hf).1
  obtain ⟨cs, hnode⟩ := Tree.exists_node_of_isKind hk
  rw [hnode, Tree.all_node] at hformed
  obtain houter | ⟨x, rfl, hx, hlex⟩ := hformed.1
  · cases houter
  · exact ⟨x, hlex, hx, by simp [hnode, Tree.text]⟩

/-- **What is read in the literals of a text.** A string says what stands in it with the escapes
resolved, and its closing quote as well when a backslash stands before that. A regular expression
says what stands in it, without the last slash when it is not closed and ends with one. A quoted
text says the text again, and a quote behind it when it ends with a backslash. -/
theorem literal_views (t : Text) :
    (∀ f ∈ (parse t).nodes, f.tree.isKind (.literal .string) = true →
      stringContents f.tree.text = unescape (LiteralKind.string.inner f.tree.text) ++
        if isTerminated .string f.tree.text = true ∧
          (LiteralKind.string.inner f.tree.text).getLast? = some '\\' then ['"'] else []) ∧
    (∀ f ∈ (parse t).nodes, f.tree.isKind (.literal .regex) = true →
      regexPattern f.tree.text =
        if isTerminated .regex f.tree.text = false ∧
            (LiteralKind.regex.inner f.tree.text).getLast? = some '/'
          then (LiteralKind.regex.inner f.tree.text).dropLast
          else LiteralKind.regex.inner f.tree.text) ∧
    ∀ s : Text, stringContents (quoted s) = s ++ if s.getLast? = some '\\' then ['"'] else [] := by
  refine ⟨fun f hf hk => ?_, fun f hf hk => ?_, stringContents_quoted⟩
  · obtain ⟨x, hlex, hx, htext⟩ := exists_lexeme_of_literal hf hk
    rw [htext]
    exact hlex.stringContents_eq hx
  · obtain ⟨x, hlex, hx, htext⟩ := exists_lexeme_of_literal hf hk
    rw [htext]
    exact hlex.regexPattern_eq hx

/-- A closed string with an escaped quote at its end, and a closed regular expression with an
escaped backslash at its end. -/
theorem literal_views_escaped :
    (∃ f ∈ (parse "o:\"a\\\"\" /b\\\\/".toList).nodes,
      f.tree.isKind (.literal .string) = true ∧
        stringContents f.tree.text = "a\"".toList) ∧
    ∃ f ∈ (parse "o:\"a\\\"\" /b\\\\/".toList).nodes,
      f.tree.isKind (.literal .regex) = true ∧ regexPattern f.tree.text = "b\\\\".toList := by
  obtain ⟨hstring, hregex, -⟩ := literal_views "o:\"a\\\"\" /b\\\\/".toList
  have hone : ∃ f ∈ (parse "o:\"a\\\"\" /b\\\\/".toList).nodes,
      f.tree.isKind (.literal .string) = true ∧ f.tree.text = "\"a\\\"\"".toList := by
    decide +kernel
  have htwo : ∃ f ∈ (parse "o:\"a\\\"\" /b\\\\/".toList).nodes,
      f.tree.isKind (.literal .regex) = true ∧ f.tree.text = "/b\\\\/".toList := by
    decide +kernel
  constructor
  · obtain ⟨f, hf, hk, htext⟩ := hone
    have hcontents := hstring f hf hk
    rw [htext] at hcontents
    exact ⟨f, hf, hk, by rw [htext, hcontents]; decide +kernel⟩
  · obtain ⟨f, hf, hk, htext⟩ := htwo
    have hpattern := hregex f hf hk
    rw [htext] at hpattern
    exact ⟨f, hf, hk, by rw [htext, hpattern]; decide +kernel⟩

/-- **A closing quote that is kept, and an escaped slash that is dropped.** -/
theorem literal_views_misread :
    (∃ f ∈ (parse "\"x\\\\\" /a\\/".toList).nodes, f.tree.isKind (.literal .string) = true ∧
      isTerminated .string f.tree.text = true ∧
      LiteralKind.string.inner f.tree.text = "x\\\\".toList ∧
      stringContents f.tree.text ≠ unescape (LiteralKind.string.inner f.tree.text)) ∧
    (∃ f ∈ (parse "\"x\\\\\" /a\\/".toList).nodes, f.tree.isKind (.literal .regex) = true ∧
      isTerminated .regex f.tree.text = false ∧
      LiteralKind.regex.inner f.tree.text = "a\\/".toList ∧
      regexPattern f.tree.text ≠ LiteralKind.regex.inner f.tree.text) ∧
    stringContents (quoted "x\\".toList) ≠ "x\\".toList := by
  decide +kernel

end CardQuery
