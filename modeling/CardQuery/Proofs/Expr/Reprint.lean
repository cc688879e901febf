import CardQuery.Proofs.Expr.Printing
import CardQuery.Proofs.Parse.Lines

/-!
# Expressions that were built

An expression need not come from a text. What its tags have to be so that it can be printed is
said of their parts one by one (`QueryTag.WellSpelled`): each part alone is read as the tokens that
it stands for in a tag.

Main statement: however such an expression is nested, its text is read without errors as an
expression with the same normal form, which is printed as the same text (`Expr.reads_own_text`).
-/

set_option autoImplicit false

namespace CardQuery

/-! ## Tags by their parts -/

/-- The texts of the comparisons. -/
def comparisonTexts : List Text :=
  [[':'], ['='], ['!', '='], ['<'], ['>'], ['<', '='], ['>', '=']]

/-- Whether a row of tokens is a value: a closed literal, a keyword, or words and minus signs. -/
def IsValue (ts : List Token) : Prop :=
  (∃ t k, ts = [t] ∧ t.kind = .literal k ∧ t.isClosed = true) ∨
    (∃ t op, ts = [t] ∧ t.kind = .keyword op) ∨
    (ts ≠ [] ∧ ∀ t ∈ ts, t.kind = .word ∨ t.kind = .minus)

/-- Whether each part of a tag is spelled as such a part is. -/
structure QueryTag.WellSpelled (q : QueryTag) : Prop where
  sign : q.sign = none ∨ q.sign = some ['-']
  argument : ∃ a, tokenize q.argument = [a] ∧ a.kind = .word
  operator : q.operator ∈ comparisonTexts
  value : IsValue (tokenize q.value)

/-- The text of a comparison is read as one. -/
theorem tokenize_of_mem_comparisonTexts {t : Text} (h : t ∈ comparisonTexts) :
    ∃ c, tokenize t = [⟨.comparison c, t⟩] := by
  simp only [comparisonTexts, List.mem_cons, List.not_mem_nil, or_false] at h
  rcases h with rfl | rfl | rfl | rfl | rfl | rfl | rfl
  exacts [⟨.colon, rfl⟩, ⟨.equal, rfl⟩, ⟨.notEqual, rfl⟩, ⟨.less, rfl⟩, ⟨.greater, rfl⟩,
    ⟨.lessEqual, rfl⟩, ⟨.greaterEqual, rfl⟩]

/-- A text that is read as one token has the text of that token. -/
theorem text_eq_of_tokenize {t : Text} {x : Token} (h : tokenize t = [x]) : x.text = t := by
  have htext := tokensText_tokenize t
  rw [h] at htext
  simpa using htext

namespace IsValue

variable {ts : List Token}

theorem exists_spelledValue (h : IsValue ts) : ∃ v e, SpelledValue ts v e := by
  rcases h with ⟨t, k, rfl, hk, hclosed⟩ | ⟨t, op, rfl, hk⟩ | ⟨hne, hts⟩
  · exact ⟨_, _, .literal hk hclosed⟩
  · exact ⟨_, _, .keyword hk⟩
  · exact ⟨_, _, .words hne hts⟩

/-- A value that was read can be read again. -/
theorem lexed {t : Text} (h : IsValue (tokenize t)) : Lexed (tokenize t) := by
  obtain ⟨v, e, hv⟩ := h.exists_spelledValue
  exact ⟨fun _ hx => isLexeme_of_mem_tokenize hx, fun x hx => (hv.parts x hx).isClosed,
    touching_tokenize t⟩

end IsValue

/-- A comparison can stand before any token but a comparison. -/
theorem comparison_canPrecede {k : TokenKind} (hk : k.isComparison = false) (c : Comparison) :
    (TokenKind.comparison c).canPrecede k = true := by
  have hne : k ≠ .comparison .equal := by
    rintro rfl
    cases hk
  cases c <;> simp [TokenKind.canPrecede, hne]

/-- **A tag whose parts are well spelled can be printed.** -/
theorem QueryTag.WellSpelled.printable {q : QueryTag} (h : q.WellSpelled) : q.Printable := by
  rcases q with ⟨sign, argument, operator, value⟩
  obtain ⟨hsign, ⟨a, ha, hword⟩, hoperator, hvalue⟩ := h
  obtain ⟨c, hop⟩ := tokenize_of_mem_comparisonTexts hoperator
  obtain ⟨v, e, hv⟩ := hvalue.exists_spelledValue
  have hlexeme : ∀ {t : Text} {x : Token}, tokenize t = [x] → x.IsLexeme :=
    fun hx => isLexeme_of_mem_tokenize (by rw [hx]; exact List.mem_singleton_self _)
  -- the parts are read one by one, and neighbours among them may touch
  have hbody : Lexed ([a] ++ ([⟨.comparison c, operator⟩] ++ tokenize value)) := by
    refine (lexed_singleton (hlexeme ha) (by simp [Token.isClosed, hword])).append
      ((lexed_singleton (hlexeme hop) rfl).append hvalue.lexed ?_) ?_
    · intro x hx y hy
      obtain rfl : ⟨.comparison c, operator⟩ = x := by simpa using hx
      exact comparison_canPrecede (hv.isComparison_eq_false y (List.mem_of_head? hy)) c
    · intro x hx y hy
      obtain rfl : a = x := by simpa using hx
      obtain rfl : ⟨.comparison c, operator⟩ = y := by simpa using hy
      rw [hword]
      rfl
  have hprintable : ∀ s : Option Token, (∀ m ∈ s, m = ⟨.minus, ['-']⟩) →
      QueryTag.Printable ⟨s.map Token.text, argument, operator, value⟩ := by
    intro s hs
    have hlexed : Lexed (s.toList ++ ([a] ++ ([⟨.comparison c, operator⟩] ++ tokenize value))) := by
      cases s with
      | none => exact hbody
      | some m =>
          obtain rfl := hs m rfl
          refine (lexed_singleton (t := ⟨.minus, ['-']⟩) (by decide) rfl).append hbody ?_
          intro x hx y hy
          obtain rfl : ⟨.minus, ['-']⟩ = x := by simpa using hx
          rfl
    have htag := printable_tag (fun m hm => by rw [hs m hm]) hword rfl hv hlexed
    rwa [text_eq_of_tokenize ha, tokensText_tokenize] at htag
  rcases hsign with rfl | rfl
  · exact hprintable none (by simp)
  · exact hprintable (some ⟨.minus, ['-']⟩) (by simp)

/-! ## Reading what was printed -/

/-- **The text of a built expression is read as the expression again.** It has no syntax errors
and no named query, and what is read has the normal form of the expression and its text. -/
theorem Expr.reads_own_text (e : Expr) (h : ∀ q ∈ e.tags, q.WellSpelled) :
    syntaxErrors (parse e.text) = [] ∧ (parse e.text).queries = [] ∧
      ∃ e', (parse e.text).expr? = some e' ∧ e'.normalized = e.normalized ∧ e'.text = e.text := by
  have he : e.Printable := fun q hq => (h q hq).printable
  obtain ⟨us, is, t, y, hphrase, htext, hreads, hlower, halike, hprinted⟩ := he.exists_reading
  have hparse : parse e.text = .node .program (regionTrees us) := by
    rw [parse, ← htext, hphrase.tokenize_tokensText, parseTokens,
      cutAtHeaders_of_held hreads.spells.held]
  have hmeaning : (Tree.node .program (regionTrees us)).expr? = some y := by
    show meaning us = some y
    rw [hreads.meaning, Option.bind_some, hlower]
  rw [hparse, syntaxErrors_eq_nil_iff, Tree.faultless_of_isRegion rfl]
  exact ⟨faultlessEach_regionTrees_iff.2 ⟨_, hreads⟩, hreads.queries_eq_nil _, y, hmeaning,
    halike.normalized_eq, hprinted⟩

/-- A row of `and` that is nested to the right, with an `or` in it and a value of each kind. -/
def nestedSample : Expr :=
  .binary .and (.tag ⟨none, ['a'], [':'], ['/', 'b', '/']⟩)
    (.binary .and (.binary .or (.tag ⟨some ['-'], ['c'], ['<', '='], ['-', '1']⟩)
      (.clause (.tag ⟨none, ['d'], ['='], ['o', 'r']⟩))) (.tag ⟨none, ['e'], ['<'], ['f']⟩))

theorem wellSpelled_nestedSample : ∀ q ∈ nestedSample.tags, q.WellSpelled := by
  intro q hq
  simp only [nestedSample, Expr.tags, List.cons_append, List.nil_append, List.mem_cons,
    List.not_mem_nil, or_false] at hq
  rcases hq with rfl | rfl | rfl | rfl
  · exact ⟨by decide, ⟨_, rfl, rfl⟩, by decide, Or.inl ⟨_, .regex, rfl, rfl, rfl⟩⟩
  · exact ⟨by decide, ⟨_, rfl, rfl⟩, by decide, Or.inr (Or.inr ⟨by decide, by decide⟩)⟩
  · exact ⟨by decide, ⟨_, rfl, rfl⟩, by decide, Or.inr (Or.inl ⟨_, .or, rfl, rfl⟩)⟩
  · exact ⟨by decide, ⟨_, rfl, rfl⟩, by decide, Or.inr (Or.inr ⟨by decide, by decide⟩)⟩

theorem Expr.reads_own_text_nested :
    (∀ q ∈ nestedSample.tags, q.WellSpelled) ∧
      (syntaxErrors (parse nestedSample.text) = [] ∧ (parse nestedSample.text).queries = [] ∧
        ∃ e', (parse nestedSample.text).expr? = some e' ∧
          e'.normalized = nestedSample.normalized ∧ e'.text = nestedSample.text) :=
  ⟨wellSpelled_nestedSample, Expr.reads_own_text nestedSample wellSpelled_nestedSample⟩

end CardQuery
