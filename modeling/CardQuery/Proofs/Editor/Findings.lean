import CardQuery.Proofs.Cursor.TagUnder

/-!
# What diagnostics find

Problems are met from left to right, each at a token or at the end of the text, so the syntax
errors of a text come in the order of their starts. So do the findings about tags, because tags
stand apart. Sorting by start then only puts the one row into the other: each row keeps its order,
and where two diagnostics start together the syntax error comes first.

Main statement: `Tree.diagnostics_complete`.
-/

set_option autoImplicit false

namespace CardQuery

open CardQuery.Tree (widthOf)

/-! ## Problems in the order of the text -/

theorem bounds_of_mem_problemsFrom {start : Nat} {t : Tree} {p : PlacedProblem}
    (h : p ∈ problemsFrom start t) : start ≤ p.start ∧ p.start ≤ start + t.width := by
  obtain ⟨before, after, htokens, hstart⟩ := exists_of_mem_problemsFrom h
  rw [← Tree.tokensWidth_tokens, htokens, tokensWidth_append]
  omega

theorem bounds_of_mem_problemsOf {start : Nat} {cs : List Tree} {p : PlacedProblem}
    (h : p ∈ problemsOf start cs) : start ≤ p.start ∧ p.start ≤ start + widthOf cs := by
  obtain ⟨before, after, htokens, hstart⟩ := exists_of_mem_problemsOf h
  rw [← Tree.tokensWidth_tokensOf, htokens, tokensWidth_append]
  omega

theorem start_of_mem_placeAt {start : Nat} {ps : List Problem} {p : PlacedProblem}
    (h : p ∈ placeAt start ps) : p.start = start := by
  obtain ⟨q, -, rfl⟩ := List.mem_map.1 h
  rfl

theorem pairwise_placeAt (start : Nat) (ps : List Problem) :
    (placeAt start ps).Pairwise fun p q => p.start ≤ q.start :=
  List.pairwise_map.2 (List.pairwise_of_forall fun _ _ => Nat.le_refl start)

mutual

/-- The problems with a node itself stand at its ends, and those in it between them. -/
theorem pairwise_problemsFrom (start : Nat) (t : Tree) :
    (problemsFrom start t).Pairwise fun p q => p.start ≤ q.start := by
  cases t with
  | token t => simp
  | node k cs =>
      rw [problemsFrom_node, List.pairwise_append, List.pairwise_append]
      refine ⟨⟨pairwise_placeAt _ _, pairwise_problemsOf start cs, ?_⟩, pairwise_placeAt _ _, ?_⟩
      · intro p hp q hq
        rw [start_of_mem_placeAt hp]
        exact (bounds_of_mem_problemsOf hq).1
      · intro p hp q hq
        rw [start_of_mem_placeAt hq]
        rcases List.mem_append.1 hp with hp | hp
        · rw [start_of_mem_placeAt hp]
          exact Nat.le_add_right _ _
        · exact (bounds_of_mem_problemsOf hp).2

theorem pairwise_problemsOf (start : Nat) (cs : List Tree) :
    (problemsOf start cs).Pairwise fun p q => p.start ≤ q.start := by
  cases cs with
  | nil => simp
  | cons c cs =>
      rw [problemsOf_cons, List.pairwise_append]
      refine ⟨pairwise_problemsFrom start c, pairwise_problemsOf _ cs, fun p hp q hq => ?_⟩
      exact Nat.le_trans (bounds_of_mem_problemsFrom hp).2 (bounds_of_mem_problemsOf hq).1

end

theorem start_spanAt (ps : List PlacedToken) (start : Nat) : (spanAt ps start).start = start := by
  unfold spanAt
  split
  · next p hfound =>
      have hstart := List.find?_some hfound
      exact of_decide_eq_true hstart
  · rfl

/-- The syntax errors of a tree come in the order of their starts. -/
theorem pairwise_syntaxErrors (t : Tree) :
    (syntaxErrors t).Pairwise fun a b => a.span.start ≤ b.span.start := by
  rw [syntaxErrors, List.pairwise_map]
  refine (pairwise_problemsFrom 0 t).imp fun {p q} h => ?_
  rwa [start_spanAt, start_spanAt]

/-- Whether a range is that of a token of a text, or the empty one at the end of the text. -/
def Span.IsAnchored (s : Span) (t : Text) : Prop :=
  (∃ p ∈ placeTokens 0 (tokenize t), s = p.span) ∨ s = ⟨t.width, t.width⟩

theorem isAnchored_of_mem_syntaxErrors {t : Text} {e : SyntaxError}
    (he : e ∈ syntaxErrors (parse t)) : e.span.IsAnchored t := by
  obtain ⟨p, hp, rfl⟩ := List.mem_map.1 he
  simp only [spanAt]
  split
  · next found hfound =>
      have hmem := List.mem_map_of_mem (f := PlacedToken.span) (List.mem_of_find?_eq_some hfound)
      rw [map_span_parse] at hmem
      obtain ⟨q, hq, hspan⟩ := List.mem_map.1 hmem
      exact Or.inl ⟨q, hq, hspan.symm⟩
  · next hnone =>
      obtain ⟨before, after, htokens, hstart⟩ := exists_of_mem_problemsFrom hp
      rw [Nat.zero_add] at hstart
      cases after with
      | nil =>
          have htext : tokensText (parse t).tokens = t := text_parse t
          have hwidth : p.start = t.width := by
            rw [← htext, htokens, List.append_nil, width_tokensText, hstart]
          exact Or.inr (by rw [hwidth])
      | cons x after =>
          -- a token does stand there, so the search has not failed
          have hmem : ⟨x, p.start⟩ ∈ placeTokens 0 (parse t).tokens := by
            rw [htokens, placeTokens_append, Nat.zero_add, hstart]
            simp [placeTokens]
          exact absurd (List.find?_eq_none.1 hnone _ hmem) (by simp)

/-! ## Sorting keeps the order of what is sorted -/

section Sorting

variable {α : Type} {key : α → Nat} {xs : List α}

theorem List.pairwise_mergeSort_key (key : α → Nat) (xs : List α) :
    (xs.mergeSort fun a b => key a ≤ key b).Pairwise fun a b => key a ≤ key b := by
  have h := @List.pairwise_mergeSort α (fun a b => decide (key a ≤ key b))
    (fun a b c => by simpa using Nat.le_trans) (fun a b => by simpa using Nat.le_total _ _) xs
  simpa using h

/-- Members that come in order before sorting come in the same order after it. -/
theorem List.filter_mergeSort {p : α → Bool}
    (h : (xs.filter p).Pairwise fun a b => key a ≤ key b) :
    (xs.mergeSort fun a b => key a ≤ key b).filter p = xs.filter p := by
  have hsub : (xs.filter p).Sublist (xs.mergeSort fun a b => key a ≤ key b) :=
    List.sublist_mergeSort (fun a b c => by simpa using Nat.le_trans)
      (fun a b => by simpa using Nat.le_total _ _) (by simpa using h) List.filter_sublist
  have hkept := hsub.filter p
  simp only [List.filter_filter, Bool.and_self] at hkept
  exact (hkept.eq_of_length ((List.mergeSort_perm xs _).filter p).length_eq.symm).symm

/-- Members with the same key keep their order. -/
theorem List.pairwise_mergeSort_of_ties {r : α → α → Prop}
    (h : ∀ n, (xs.filter fun a => key a = n).Pairwise r) :
    (xs.mergeSort fun a b => key a ≤ key b).Pairwise
      fun a b => key a < key b ∨ key a = key b ∧ r a b := by
  rw [List.pairwise_iff_forall_sublist]
  intro a b hab
  have hle := List.pairwise_iff_forall_sublist.1 (List.pairwise_mergeSort_key key xs) hab
  rcases Nat.lt_or_eq_of_le hle with hlt | heq
  · exact Or.inl hlt
  · refine Or.inr ⟨heq, ?_⟩
    have hties : (xs.filter fun c => key c = key b).Pairwise fun c d => key c ≤ key d := by
      refine List.Pairwise.imp_of_mem (R := fun _ _ => True) (fun {c d} hc hd _ => ?_)
        (List.pairwise_of_forall fun _ _ => trivial)
      have hc' : key c = key b := of_decide_eq_true (List.mem_filter.1 hc).2
      have hd' : key d = key b := of_decide_eq_true (List.mem_filter.1 hd).2
      omega
    have hkept := hab.filter fun c => key c = key b
    rw [List.filter_mergeSort hties] at hkept
    exact List.pairwise_iff_forall_sublist.1 (h (key b)) (by simpa [heq] using hkept)

end Sorting

/-! ## Findings about tags -/

/-- Whether a diagnostic is due for the tag at a place, which has an argument and a comparison: its
argument spells none, or else its comparison is not one of those that the argument accepts. -/
inductive Focus.Calls (f : Focus) : Diagnostic → Prop
  | unknown {argument operator : Focus} (hargument : f.child? .argument = some argument)
      (hoperator : f.child? .operator = some operator)
      (hunknown : isArgument argument.tree.text = false) :
      Calls f ⟨.unknownArgument argument.tree.text, argument.span⟩
  | notAllowed {argument operator : Focus} {kind : ArgumentKind} {op : Comparison} {spelled : Text}
      (hargument : f.child? .argument = some argument)
      (hoperator : f.child? .operator = some operator)
      (hkind : argumentKind? argument.tree.text = some kind)
      (hop : operator.tree = .leaf .operator ⟨.comparison op, spelled⟩)
      (hnot : op ∉ kind.comparisonClass.comparisons) :
      Calls f ⟨.comparisonNotAllowed spelled argument.tree.text kind.comparisonClass,
        operator.span⟩

theorem isArgument_eq_false_iff (name : Text) :
    isArgument name = false ↔ argumentKind? name = none := by
  simp [isArgument, argumentKind?]

/-- A child of a place is a place below it, and arranged as its kind asks for. -/
theorem Tree.arranged_of_child? {t : Text} {f c : Focus} (hf : f ∈ (parse t).focuses)
    {k : NodeKind} (hc : f.child? k = some c) :
    c ∈ (parse t).focuses ∧ c.up? = some f ∧ ∃ cs, c.tree = .node k cs ∧ k.Arranged cs := by
  obtain ⟨hplace, hup⟩ := mem_focuses_of_mem_children hf (List.mem_of_find?_eq_some hc)
  have hkind := List.find?_some hc
  exact ⟨hplace, hup, exists_arranged hplace hkind⟩

theorem Tree.exists_leaf_operator {t : Text} {f c : Focus} (hf : f ∈ (parse t).focuses)
    (hc : f.child? .operator = some c) :
    ∃ op spelled, c.tree = .leaf .operator ⟨.comparison op, spelled⟩ := by
  obtain ⟨-, -, cs, htree, harranged⟩ := arranged_of_child? hf hc
  obtain ⟨⟨kind, spelled⟩, rfl, hkind⟩ := harranged.parts
  cases kind with
  | comparison op => exact ⟨op, spelled, htree⟩
  | _ => cases hkind

/-- **What is found about a tag is what is due.** -/
theorem Tree.tagDiagnostic?_eq_some_iff {t : Text} {f : Focus} (hf : f ∈ (parse t).tags)
    {d : Diagnostic} : f.tagDiagnostic? = some d ↔ f.Calls d := by
  have hplace := mem_focuses_of_mem_terms (mem_terms_of_mem_tags hf)
  have htag : f.tree.isKind .tag = true := (List.mem_filter.1 hf).2
  have hcomparison : ∀ (op : Comparison) (spelled : Text),
      (leaf .operator ⟨.comparison op, spelled⟩).comparisonKind? = some (.comparison op) ∧
        (leaf .operator ⟨.comparison op, spelled⟩).text = spelled := fun op spelled =>
    ⟨rfl, by simp [text]⟩
  rw [Focus.tagDiagnostic?, if_pos htag]
  constructor
  · intro h
    obtain ⟨argument, hargument, h⟩ := Option.bind_eq_some_iff.1 h
    obtain ⟨operator, hoperator, h⟩ := Option.bind_eq_some_iff.1 h
    obtain ⟨op, spelled, hop⟩ := exists_leaf_operator hplace hoperator
    cases hkind : argumentKind? argument.tree.text with
    | none =>
        simp only [hkind, Option.some.injEq] at h
        rw [← h]
        exact .unknown hargument hoperator ((isArgument_eq_false_iff _).2 hkind)
    | some kind =>
        simp only [hkind, hop, hcomparison, Option.bind_eq_bind, Option.bind_some] at h
        split at h
        · cases h
        · next hnot =>
            cases h
            rw [ComparisonClass.allows_comparison_iff] at hnot
            exact .notAllowed hargument hoperator hkind hop hnot
  · intro h
    cases h with
    | unknown hargument hoperator hunknown =>
        simp [hargument, hoperator, (isArgument_eq_false_iff _).1 hunknown]
    | notAllowed hargument hoperator hkind hop hnot =>
        rw [← ComparisonClass.allows_comparison_iff] at hnot
        simp [hargument, hoperator, hkind, hop, hcomparison, hnot]

namespace Tree

theorem tagDiagnostics_eq (t : Tree) :
    t.tagDiagnostics = t.tags.filterMap Focus.tagDiagnostic? := by
  rw [tagDiagnostics, tags, List.filterMap_filter]
  refine List.filterMap_congr fun f _ => ?_
  cases htag : f.tree.isKind .tag <;> simp [Focus.tagDiagnostic?, htag]

/-- The parts of a tag are not empty. -/
theorem start_lt_stop_of_child? {t : Text} {f c : Focus} (hf : f ∈ (parse t).focuses)
    {k : NodeKind} (hk : k.isTagPart = true) (hc : f.child? k = some c) : c.start < c.stop := by
  obtain ⟨hplace, -, cs, htree, harranged⟩ := arranged_of_child? hf hc
  obtain ⟨ts, hne, rfl⟩ := harranged.exists_tokens hk
  obtain ⟨x, rest, rfl⟩ := List.exists_cons_of_ne_nil hne
  exact start_lt_stop_of_mem_tokens hplace (x := x) (by simp [htree])

/-- A finding about a tag is shown at a part of the tag. -/
theorem bounds_of_tagDiagnostic? {t : Text} {f : Focus} (hf : f ∈ (parse t).tags) {d : Diagnostic}
    (hd : f.tagDiagnostic? = some d) :
    f.start ≤ d.span.start ∧ d.span.start < d.span.stop ∧ d.span.stop ≤ f.stop := by
  have hplace := mem_focuses_of_mem_terms (mem_terms_of_mem_tags hf)
  have hpart : ∀ {k : NodeKind} {c : Focus}, k.isTagPart = true → f.child? k = some c →
      f.start ≤ c.start ∧ c.start < c.stop ∧ c.stop ≤ f.stop := by
    intro k c hk hc
    obtain ⟨hstart, hstop⟩ := bounds_of_mem_children (List.mem_of_find?_eq_some hc)
    exact ⟨hstart, start_lt_stop_of_child? hplace hk hc, hstop⟩
  cases (tagDiagnostic?_eq_some_iff hf).1 hd with
  | unknown hargument _ _ => exact hpart rfl hargument
  | notAllowed _ hoperator _ _ _ => exact hpart rfl hoperator

/-- The findings about tags come one behind the other, as the tags do. -/
theorem pairwise_tagDiagnostics (t : Text) :
    (parse t).tagDiagnostics.Pairwise fun a b => a.span.stop ≤ b.span.start := by
  rw [tagDiagnostics_eq, List.pairwise_filterMap]
  refine (pairwise_tags t).imp_of_mem fun {f g} hf hg hfg a ha b hb => ?_
  exact Nat.le_trans (bounds_of_tagDiagnostic? hf ha).2.2
    (Nat.le_trans hfg (bounds_of_tagDiagnostic? hg hb).1)

/-- What is found about a tag is not empty. -/
theorem start_lt_stop_of_mem_tagDiagnostics {t : Text} {d : Diagnostic}
    (hd : d ∈ (parse t).tagDiagnostics) : d.span.start < d.span.stop := by
  rw [tagDiagnostics_eq] at hd
  obtain ⟨f, hf, hd⟩ := List.mem_filterMap.1 hd
  exact (bounds_of_tagDiagnostic? hf hd).2.1

theorem pairwise_start_tagDiagnostics (t : Text) :
    (parse t).tagDiagnostics.Pairwise fun a b => a.span.start < b.span.start :=
  (pairwise_tagDiagnostics t).imp_of_mem fun ha _ hab =>
    Nat.lt_of_lt_of_le (start_lt_stop_of_mem_tagDiagnostics ha) hab

end Tree

/-! ## All diagnostics of a text -/

/-- Whether a finding is a syntax error. -/
def Finding.isSyntaxError : Finding → Bool
  | .syntaxError _ => true
  | _ => false

/-- Whether a finding is about an argument that is not known. -/
def Finding.isUnknownArgument : Finding → Bool
  | .unknownArgument _ => true
  | _ => false

/-- A syntax error among the diagnostics. -/
def SyntaxError.diagnostic (e : SyntaxError) : Diagnostic :=
  ⟨.syntaxError e.problem, e.span⟩

namespace Diagnostic

/-- Whether a diagnostic is a syntax error. -/
def isSyntaxError (d : Diagnostic) : Bool :=
  d.finding.isSyntaxError

/-- What is seen of a diagnostic: how serious it is, its message and its range. -/
def shown (d : Diagnostic) : Severity × Text × Span :=
  (d.finding.severity, d.finding.message, d.span)

/-- Whether a diagnostic can stand in front of another: it starts before it, or with it, and is a
syntax error if that is one. -/
def Precedes (a b : Diagnostic) : Prop :=
  a.span.start < b.span.start ∨
    a.span.start = b.span.start ∧ (b.isSyntaxError = true → a.isSyntaxError = true)

end Diagnostic

namespace Tree

variable {t : Text}

/-- The syntax errors of a text as diagnostics. -/
def errorDiagnostics (t : Tree) : List Diagnostic :=
  (syntaxErrors t).map SyntaxError.diagnostic

theorem diagnostics_eq (t : Tree) : t.diagnostics
    = (t.errorDiagnostics ++ t.tagDiagnostics).mergeSort fun a b => a.span.start ≤ b.span.start :=
  rfl

theorem isSyntaxError_of_mem_errorDiagnostics {t : Tree} {d : Diagnostic}
    (h : d ∈ t.errorDiagnostics) : d.isSyntaxError = true := by
  obtain ⟨e, -, rfl⟩ := List.mem_map.1 h
  rfl

theorem isSyntaxError_of_mem_tagDiagnostics {d : Diagnostic} (h : d ∈ (parse t).tagDiagnostics) :
    d.isSyntaxError = false := by
  rw [tagDiagnostics_eq] at h
  obtain ⟨f, hf, hd⟩ := List.mem_filterMap.1 h
  cases (tagDiagnostic?_eq_some_iff hf).1 hd <;> rfl

/-- Among the diagnostics the syntax errors are just those of the text, in their order. -/
theorem filter_isSyntaxError_diagnostics (t : Text) :
    (parse t).diagnostics.filter Diagnostic.isSyntaxError = (parse t).errorDiagnostics := by
  have hfilter : ((parse t).errorDiagnostics ++ (parse t).tagDiagnostics).filter
      Diagnostic.isSyntaxError = (parse t).errorDiagnostics := by
    rw [List.filter_append, List.filter_eq_self.2 fun d => isSyntaxError_of_mem_errorDiagnostics,
      List.filter_eq_nil_iff.2 fun d hd => by simp [isSyntaxError_of_mem_tagDiagnostics hd],
      List.append_nil]
  rw [diagnostics_eq, List.filter_mergeSort, hfilter]
  rw [hfilter, errorDiagnostics, List.pairwise_map]
  exact pairwise_syntaxErrors (parse t)

/-- The other diagnostics are the findings about tags, in their order. -/
theorem filter_not_isSyntaxError_diagnostics (t : Text) :
    (parse t).diagnostics.filter (fun d => !d.isSyntaxError) = (parse t).tagDiagnostics := by
  have hfilter : ((parse t).errorDiagnostics ++ (parse t).tagDiagnostics).filter
      (fun d => !d.isSyntaxError) = (parse t).tagDiagnostics := by
    rw [List.filter_append,
      List.filter_eq_nil_iff.2 fun d hd => by simp [isSyntaxError_of_mem_errorDiagnostics hd],
      List.filter_eq_self.2 fun d hd => by simp [isSyntaxError_of_mem_tagDiagnostics hd],
      List.nil_append]
  rw [diagnostics_eq, List.filter_mergeSort, hfilter]
  rw [hfilter]
  exact (pairwise_start_tagDiagnostics t).imp Nat.le_of_lt

/-- Diagnostics come in the order of their starts, and syntax errors before findings about tags. -/
theorem pairwise_diagnostics (t : Text) : (parse t).diagnostics.Pairwise Diagnostic.Precedes := by
  have hties : ((parse t).errorDiagnostics ++ (parse t).tagDiagnostics).Pairwise
      fun a b => b.isSyntaxError = true → a.isSyntaxError = true := by
    refine List.pairwise_append.2 ⟨?_, ?_, fun a ha _ _ _ => ?_⟩
    · exact List.Pairwise.imp_of_mem (fun ha _ _ _ => isSyntaxError_of_mem_errorDiagnostics ha)
        (List.pairwise_of_forall fun _ _ => trivial)
    · exact List.Pairwise.imp_of_mem (fun _ hb _ hsyntax => by
        rw [isSyntaxError_of_mem_tagDiagnostics hb] at hsyntax
        cases hsyntax) (List.pairwise_of_forall fun _ _ => trivial)
    · exact isSyntaxError_of_mem_errorDiagnostics ha
  exact List.pairwise_mergeSort_of_ties fun n => hties.filter _

/-- **Diagnostics are complete and in order.** The syntax errors of a text come in the order of
their starts, each at a token of the text or at its end. The diagnostics are these errors, as
errors with the same messages, and for each tag with an argument and a comparison what is due about
it, which is one finding at most; each row keeps its order. They come in the order of their starts,
and where two start together the syntax error is in front. Warnings are just about unknown
arguments. -/
theorem diagnostics_complete (t : Text) :
    (syntaxErrors (parse t)).Pairwise (fun a b => a.span.start ≤ b.span.start) ∧
    (∀ e ∈ syntaxErrors (parse t), e.span.IsAnchored t) ∧
    (parse t).diagnostics.Pairwise Diagnostic.Precedes ∧
    ((parse t).diagnostics.filter Diagnostic.isSyntaxError).map Diagnostic.shown
      = (syntaxErrors (parse t)).map (fun e => (.error, e.problem.message.toList, e.span)) ∧
    (parse t).diagnostics.filter (fun d => !d.isSyntaxError)
      = (parse t).tags.filterMap Focus.tagDiagnostic? ∧
    (∀ f ∈ (parse t).tags, ∀ d, f.tagDiagnostic? = some d ↔ f.Calls d) ∧
    ∀ d ∈ (parse t).diagnostics,
      d.finding.severity = .warning ↔ ∃ name, d.finding = .unknownArgument name := by
  refine ⟨pairwise_syntaxErrors _, fun e => isAnchored_of_mem_syntaxErrors, pairwise_diagnostics t,
    ?_, ?_, fun f hf d => tagDiagnostic?_eq_some_iff hf, fun d _ => ?_⟩
  · rw [filter_isSyntaxError_diagnostics, errorDiagnostics, List.map_map]
    rfl
  · rw [filter_not_isSyntaxError_diagnostics, tagDiagnostics_eq]
  · cases d.finding <;> simp [Finding.severity]

/-- A warning about an unknown argument between two syntax errors. -/
theorem diagnostics_complete_sample :
    ((parse "t:(zz:b".toList).diagnostics.filter Diagnostic.isSyntaxError).map Diagnostic.shown
        = [(.error, "expected a value".toList, ⟨2, 3⟩), (.error, "expected ')'".toList, ⟨7, 7⟩)] ∧
      ∃ d, (parse "t:(zz:b".toList).diagnostics.filter (fun d => !d.isSyntaxError) = [d] ∧
        d.span = ⟨3, 5⟩ ∧ d.finding.severity = .warning := by
  obtain ⟨-, -, -, herrors, hfound, -, hwarning⟩ := diagnostics_complete "t:(zz:b".toList
  have hone := hfound.trans (by decide +kernel : _ = [⟨.unknownArgument "zz".toList, ⟨3, 5⟩⟩])
  have hmem := List.mem_of_mem_filter (hone ▸ List.mem_singleton_self _)
  exact ⟨herrors.trans (by decide +kernel), _, hone, rfl, (hwarning _ hmem).2 ⟨_, rfl⟩⟩

end Tree

end CardQuery
