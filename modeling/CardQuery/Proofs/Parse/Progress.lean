import CardQuery.Proofs.Parse.DescentProgram

/-!
# Reading by descent comes to an end

Each rule takes a token before it is used again, in every state that it can be used in, so the
rules need no limit: one that grows with the number of tokens is never reached. They build the tree
of the text, and their remarks are its syntax errors. None of the remarks for a token that no rule
takes is ever made, and a character is called unexpected just where no token can be read.

Main statement: `descend_finishes`.
-/

set_option autoImplicit false

namespace CardQuery

/-! ## Unexpected characters -/

/-- The problems with the tokens of a row that are no tokens of the language. -/
def unexpectedFrom (start : Nat) (ts : List Token) : List PlacedProblem :=
  ((placeTokens start ts).filter fun p => p.token.kind = .unknown).map fun p =>
    ⟨.unexpectedCharacter, p.start⟩

/-- The problems with unexpected characters among some problems. -/
def unexpected (ps : List PlacedProblem) : List PlacedProblem :=
  ps.filter fun p => p.problem = .unexpectedCharacter

theorem unexpectedFrom_cons (start : Nat) (t : Token) (ts : List Token) :
    unexpectedFrom start (t :: ts)
      = placeAt start (if t.kind = .unknown then [.unexpectedCharacter] else [])
        ++ unexpectedFrom (start + t.width) ts := by
  by_cases ht : t.kind = .unknown <;> simp [unexpectedFrom, placeTokens, placeAt, ht]

@[simp] theorem unexpectedFrom_append (start : Nat) (ts us : List Token) :
    unexpectedFrom start (ts ++ us)
      = unexpectedFrom start ts ++ unexpectedFrom (start + tokensWidth ts) us := by
  simp [unexpectedFrom, placeTokens_append]

theorem unexpectedFrom_eq_nil {ts : List Token} (h : ∀ t ∈ ts, t.kind ≠ .unknown) (start : Nat) :
    unexpectedFrom start ts = [] := by
  rw [unexpectedFrom, List.map_eq_nil_iff, List.filter_eq_nil_iff]
  intro p hp
  simpa using h _ (placeTokens_bounds hp).1

@[simp] theorem unexpected_append (ps qs : List PlacedProblem) :
    unexpected (ps ++ qs) = unexpected ps ++ unexpected qs :=
  List.filter_append ..

theorem unexpected_placeAt (start : Nat) (ps : List Problem) :
    unexpected (placeAt start ps) = placeAt start (ps.filter (· = .unexpectedCharacter)) := by
  simp [unexpected, placeAt, List.filter_map, Function.comp_def]

theorem filter_unexpected_eq_nil {ps : List Problem} (h : .unexpectedCharacter ∉ ps) :
    ps.filter (· = .unexpectedCharacter) = [] := by
  rw [List.filter_eq_nil_iff]
  intro p hp hunexpected
  exact h (of_decide_eq_true hunexpected ▸ hp)

theorem unexpected_placeAt_eq_nil {ps : List Problem} (h : .unexpectedCharacter ∉ ps)
    (start : Nat) : unexpected (placeAt start ps) = [] := by
  rw [unexpected_placeAt, filter_unexpected_eq_nil h, placeAt_nil]

/-! ### Where they are met -/

theorem Chain.not_unexpected_mem_missing (c : Chain) : .unexpectedCharacter ∉ c.missing := by
  cases c <;> simp [missing]

theorem not_unexpected_mem_literalProblems (k : LiteralKind) (t : Token) :
    .unexpectedCharacter ∉ literalProblems k t := by
  rw [literalProblems]
  split <;> simp

theorem Nest.not_unexpected_mem_finishProblems (n : Nest) :
    .unexpectedCharacter ∉ n.finishProblems := by
  simp [finishProblems, Chain.not_unexpected_mem_missing]

theorem Nest.not_unexpected_mem_closingProblems (n : Nest) :
    .unexpectedCharacter ∉ n.closingProblems := by
  rw [closingProblems]
  split
  · simp
  · exact n.group.chain.not_unexpected_mem_missing

theorem Chain.not_unexpected_mem_keywordProblems (c : Chain) (op : Connective) :
    .unexpectedCharacter ∉ c.keywordProblems op := by
  cases c <;> cases op <;> simp [keywordProblems, missing]

/-- At the start of an item just an unknown token is unexpected. -/
theorem Nest.filter_startProblems (n : Nest) (t : Token) (next : Option TokenKind) :
    (n.startProblems t next).filter (· = .unexpectedCharacter)
      = if t.kind = .unknown then [.unexpectedCharacter] else [] := by
  by_cases hk : t.kind = .unknown
  · simp [startProblems, hk]
  · rw [if_neg hk]
    refine filter_unexpected_eq_nil ?_
    unfold startProblems
    split
    · exact n.group.chain.not_unexpected_mem_keywordProblems _
    · exact n.not_unexpected_mem_closingProblems
    · exact not_unexpected_mem_literalProblems _ t
    · next hunknown => exact absurd hunknown hk
    · simp
    · split <;> simp
    all_goals simp

namespace Draft

theorem not_unexpected_mem_extendProblems (d : Draft) (t : Token) :
    .unexpectedCharacter ∉ d.extendProblems t := by
  unfold extendProblems
  split <;> simp [not_unexpected_mem_literalProblems]

theorem not_unexpected_mem_finishProblems (d : Draft) (next : Option TokenKind) :
    .unexpectedCharacter ∉ d.finishProblems next := by
  cases d with
  | minus t => by_cases hnext : next = some .leftParen <;> simp [finishProblems, hnext]
  | _ => simp [finishProblems]

/-- An unknown token never belongs to an item that is begun. -/
theorem extend_unknown {d d' : Draft} {t : Token} (h : d.extend t = some d') :
    t.kind ≠ .unknown := by
  intro hk
  cases d <;> simp [extend, hk] at h

end Draft

/-- Reading on calls just the unknown tokens unexpected. -/
theorem unexpected_reportsFrom (n : Nest) (d : Draft) (start : Nat) (ts : List Token) :
    unexpected (reportsFrom n d start ts) = unexpectedFrom start ts := by
  induction ts generalizing n d start with
  | nil =>
      rw [reportsFrom, placeAt_append, unexpected_append,
        unexpected_placeAt_eq_nil (d.not_unexpected_mem_finishProblems none),
        unexpected_placeAt_eq_nil (Nest.not_unexpected_mem_finishProblems _)]
      rfl
  | cons t ts ih =>
      rw [reportsFrom, unexpectedFrom_cons]
      cases hext : d.extend t with
      | some d' =>
          simp only
          rw [unexpected_append, unexpected_placeAt_eq_nil (d.not_unexpected_mem_extendProblems t),
            ih, if_neg (Draft.extend_unknown hext)]
          rfl
      | none =>
          simp only
          rw [placeAt_append, unexpected_append, unexpected_append,
            unexpected_placeAt_eq_nil (d.not_unexpected_mem_finishProblems _), List.nil_append,
            unexpected_placeAt, Nest.filter_startProblems, ih]

theorem unexpected_regionReports (start : Nat) (ts : List Token) :
    unexpected (regionReports start ts) = unexpectedFrom start ts := by
  cases ts with
  | nil => rfl
  | cons t ts =>
      rw [regionReports, unexpected_append, unexpected_placeAt, Nest.filter_startProblems,
        unexpected_reportsFrom, unexpectedFrom_cons]

theorem unexpected_bodyReports (start : Nat) (ts : List Token) :
    unexpected (bodyReports start ts) = unexpectedFrom start ts := by
  have hblanks : ∀ t ∈ ts.takeWhile Token.isBlank, t.kind ≠ .unknown := by
    intro t ht hk
    have hblank := List.mem_takeWhile_imp ht
    simp [Token.isBlank, hk] at hblank
  have hsplit := unexpectedFrom_append start (ts.takeWhile Token.isBlank)
    (ts.dropWhile Token.isBlank)
  rw [List.takeWhile_append_dropWhile, unexpectedFrom_eq_nil hblanks, List.nil_append] at hsplit
  rw [bodyReports, unexpected_regionReports, hsplit]

/-- Neither the word nor the colon of a header is unexpected. -/
theorem unexpected_sectionReports {sections : List Section} (h : Headed sections) (start : Nat) :
    unexpected (sectionReports start sections)
      = unexpectedFrom start (sections.flatMap Section.tokens) := by
  induction sections generalizing start with
  | nil => rfl
  | cons s later ih =>
      obtain ⟨hname, hcolon, -, hlater⟩ := h
      rw [sectionReports, unexpected_append, unexpected_bodyReports, ih hlater, List.flatMap_cons,
        unexpectedFrom_append]
      rw [Section.tokens, unexpectedFrom_cons, unexpectedFrom_cons, if_neg (by simp [hname]),
        if_neg (by simp [hcolon])]
      rfl

/-- **Unexpected is just what is unknown.** -/
theorem unexpected_reports (ts : List Token) : unexpected (reports ts) = unexpectedFrom 0 ts := by
  have htokens := cutFrom_tokens true true ts
  have hheaded := headed_cutFrom true true ts
  rw [reports, cutAtHeaders]
  split
  · next run hcut =>
      simp only [hcut, List.flatMap_nil, List.append_nil] at htokens
      rw [unexpected_regionReports, htokens]
  · next run sections _ hcut =>
      rw [hcut] at htokens hheaded
      rw [unexpected_append, unexpected_bodyReports, unexpected_sectionReports hheaded, ← htokens,
        unexpectedFrom_append, Nat.zero_add]

/-! ## The remarks of a text -/

/-- A syntax error as a reader remarks on it. -/
def SyntaxError.remark (e : SyntaxError) : Remark :=
  ⟨e.problem.message, e.span⟩

/-- The remark about an unexpected character. -/
def PlacedToken.unexpectedRemark (p : PlacedToken) : Remark :=
  ⟨Problem.unexpectedCharacter.message, p.span⟩

/-- Whether a message is one for a state that no rule expects. -/
def isFallback (message : String) : Bool :=
  message = "expected a query" || message = "expected a term"
    || "unexpected token:".toList.isPrefixOf message.toList

theorem Problem.isFallback_message (p : Problem) : isFallback p.message = false := by
  cases p with
  | termAfter op => cases op <;> decide
  | unterminated k => cases k <;> decide
  | _ => decide

theorem Problem.message_eq_unexpected_iff (p : Problem) :
    p.message = "unexpected character" ↔ p = .unexpectedCharacter := by
  cases p with
  | termAfter op => cases op <;> decide
  | unterminated k => cases k <;> decide
  | _ => decide

/-- A problem at the start of a token is shown at this token. -/
theorem spanAt_of_mem {ts : List Token} (hwide : ∀ t ∈ ts, 0 < t.width) {p : PlacedToken}
    (hp : p ∈ placeTokens 0 ts) : spanAt (placeTokens 0 ts) p.start = p.span := by
  obtain ⟨before, after, rfl, hstart⟩ := exists_of_mem_placeTokens hp
  rw [Nat.zero_add] at hstart
  have hbefore : ∀ t ∈ before, 0 < t.width := fun t ht => hwide t (by simp [ht])
  have hspan := spanAt_of_tokens hbefore ([p.token] ++ after)
  rw [hstart, hspan, PlacedToken.span, hstart]
  rfl

/-- The problems of a text are shown at its own tokens. -/
theorem map_remark_syntaxErrors (t : Text) :
    (syntaxErrors (parse t)).map SyntaxError.remark
      = (Frame.mk (tokenize t) []).shown (problemsFrom 0 (parse t)) := by
  have hspan : spanAt (placeTokens 0 (parse t).tokens) = spanAt (placeTokens 0 (tokenize t)) :=
    spanAt_map_span (map_span_parse t)
  rw [syntaxErrors, List.map_map, hspan]
  rfl

/-- The remarks about unexpected characters are those about the unknown tokens. -/
theorem filter_unexpected_shown {ts : List Token} (hwide : ∀ t ∈ ts, 0 < t.width)
    (rest : List MarkedToken) {ps : List PlacedProblem} (h : unexpected ps = unexpectedFrom 0 ts) :
    ((Frame.mk ts rest).shown ps).filter (fun r => r.message = "unexpected character")
      = ((placeTokens 0 ts).filter fun p => p.token.kind = .unknown).map
          PlacedToken.unexpectedRemark := by
  have hshown : ((Frame.mk ts rest).shown ps).filter (fun r => r.message = "unexpected character")
      = (Frame.mk ts rest).shown (unexpected ps) := by
    simp [Frame.shown, unexpected, List.filter_map, Function.comp_def,
      Problem.message_eq_unexpected_iff]
  rw [hshown, h, Frame.shown, unexpectedFrom, List.map_map]
  refine List.map_congr_left fun p hp => ?_
  simp only [Function.comp_apply, spanAt_of_mem hwide (List.mem_of_mem_filter hp)]
  rfl

/-- **Reading comes to an end on every text.** With any limit from a number on that grows with the
tokens alone, the rules give the same: the tree of the text, and its syntax errors as remarks. No
remark is one for a state that no rule expects, and the remarks about unexpected characters are one
for each token that is no token of the language, at the range of this token. -/
theorem descend_finishes (t : Text) :
    ∃ remarks : List Remark,
      (∀ extra, descend (5 * (tokenize t).length + 1 + extra) t = some (parse t, remarks)) ∧
      remarks = (syntaxErrors (parse t)).map SyntaxError.remark ∧
      (∀ r ∈ remarks, isFallback r.message = false) ∧
      remarks.filter (fun r => r.message = "unexpected character")
        = ((placeTokens 0 (tokenize t)).filter fun p => p.token.kind = .unknown).map
            PlacedToken.unexpectedRemark := by
  have hlex : ∀ x ∈ tokenize t, x.IsLexeme := fun x hx => isLexeme_of_mem_tokenize hx
  have hwide : ∀ x ∈ tokenize t, 0 < x.width := fun x hx => (hlex x hx).width_pos
  refine ⟨(syntaxErrors (parse t)).map SyntaxError.remark, fun extra => ?_, rfl, ?_, ?_⟩
  · have hwidth : t.width = tokensWidth (tokenize t) := by
      rw [← width_tokensText, tokensText_tokenize]
    rw [descend, hwidth, program_reader hwide (by omega), map_remark_syntaxErrors, Option.map_some]
    simp [parse, Frame.reader]
  · intro r hr
    obtain ⟨e, -, rfl⟩ := List.mem_map.1 hr
    exact e.problem.isFallback_message
  · rw [map_remark_syntaxErrors]
    refine filter_unexpected_shown hwide [] ?_
    rw [parse, problemsFrom_parseTokens hlex, unexpected_reports]

/-- A text with an unknown token and a keyword that lacks its right operand. -/
theorem descend_finishes_unknown :
    ∃ remarks, descend 26 "a ! or".toList = some (parse "a ! or".toList, remarks) ∧
      remarks = [⟨"unexpected character", ⟨2, 3⟩⟩, ⟨"expected a term after 'or'", ⟨6, 6⟩⟩] ∧
      ∀ r ∈ remarks, isFallback r.message = false := by
  obtain ⟨remarks, hread, hremarks, hfallback, -⟩ := descend_finishes "a ! or".toList
  have hlimit : 5 * (tokenize "a ! or".toList).length + 1 + 0 = 26 := by decide +kernel
  have hread' := hread 0
  rw [hlimit] at hread'
  exact ⟨remarks, hread', hremarks.trans (by decide +kernel), hfallback⟩

end CardQuery
