import CardQuery.Proofs.Editor.Written
import CardQuery.Proofs.Parse.Grammar
import CardQuery.Proofs.Token.LetterCase

/-!
# Reading back a completion

A completion inserts the label of a candidate behind an argument and a comparison. What is read
there is a tag, and its value should say the label again.

It does unless the label ends with a backslash and is in quotes, or is without quotes and is not
one value: it begins with a slash and is no regular expression, or is a minus sign before a
keyword or a slash.

Main statement: which labels are read back (`completion_reads_back_iff`).
-/

set_option autoImplicit false

namespace CardQuery

/-! ## The tag that is read -/

/-- The tokens of a value are those of a value. -/
theorem SpelledValue.isValue {ts : List Token} {v : Tree} {e : Ending} (h : SpelledValue ts v e) :
    IsValue ts := by
  cases h with
  | literal hk hclosed => exact Or.inl ⟨_, _, rfl, hk, hclosed⟩
  | keyword hk => exact Or.inr (Or.inl ⟨_, _, rfl, hk⟩)
  | words hne hts => exact Or.inr (Or.inr ⟨hne, hts⟩)

/-- A value without quotes says what is written. -/
theorem SpelledValue.unquoted_eq {ts : List Token} {v : Tree} {e : Ending}
    (h : SpelledValue ts v e) (hword : ∀ x ∈ ts, x.kind.continuesWord = true) :
    v.unquoted = tokensText ts := by
  cases h with
  | @literal k t hk hclosed =>
      have ht := hword t (by simp)
      cases k with
      | string => simp [hk, TokenKind.continuesWord] at ht
      | regex => simp [Tree.unquoted, Tree.leaf, Tree.text]
  | keyword hk => simp [Tree.unquoted, Tree.leaf, Tree.text]
  | words hne hts => simp [Tree.unquoted, Tree.flat, Tree.text]

/-- Whether a text is read without errors as one tag, whose value says `label`. -/
def ReadsAsTag (t label : Text) : Prop :=
  syntaxErrors (parse t) = [] ∧ ∃ tag, parse t = .node .program [tag] ∧ tag.isKind .tag = true ∧
    tag.value?.map Tree.unquoted = some label

/-- A spelled row that begins with an argument and a comparison begins with their tag. -/
theorem exists_spelledValue_of_spells {a op : Token} {ts : List Token} {is : List Item}
    (h : Spells (a :: op :: ts) is) (ha : a.kind = .word) (hop : op.kind.isComparison = true) :
    ∃ vs rest v e tag js, ts = vs ++ rest ∧ SpelledValue vs v e ∧ is = .term tag :: js ∧
      Spells rest js := by
  generalize hrow : a :: op :: ts = row at h
  cases h with
  | nil => cases hrow
  | mark hi rest =>
      cases hrow
      simp [Item.ofMark?, ha] at hi
  | @term w rest tree e js hw hnext hrest =>
      cases hw with
      | literal hk hclosed =>
          cases hrow
          rw [ha] at hk
          cases hk
      | word hw =>
          cases hrow
          have htakes := hnext op rfl
          cases hk : op.kind <;> simp_all [Ending.takes, TokenKind.isComparison]
      | signedLiteral hm hk hclosed =>
          cases hrow
          rw [ha] at hm
          cases hm
      | signedWord hm hk =>
          cases hrow
          rw [ha] at hm
          cases hm
      | @tag sign a' op' vs v e hsign ha' hop' hv =>
          cases sign with
          | none =>
              cases hrow
              exact ⟨vs, rest, v, e, _, js, rfl, hv, rfl, hrest⟩
          | some m =>
              cases hrow
              have hm := hsign a rfl
              rw [ha] at hm
              cases hm

/-- A text in which every comparison is held is one region. -/
theorem parse_of_held {t : Text} (h : Held (tokenize t)) :
    parse t = .node .program (regionTrees (tokenize t)) := by
  rw [parse, parseTokens, cutAtHeaders_of_held h]

section Tag

variable {t : Text} {a op : Token} {ts : List Token} (hts : tokenize t = a :: op :: ts)
  (ha : a.kind = .word) (hop : op.kind.isComparison = true)
include hts ha hop

/-- An argument, a comparison and a value are read as a tag. -/
theorem readsAsTag_of_spelledValue {v : Tree} {e : Ending} (hv : SpelledValue ts v e) :
    ReadsAsTag t v.unquoted := by
  have hterm : SpelledTerm (a :: op :: ts)
      (.node .tag [.leaf .argument a, .leaf .operator op, v]) e :=
    .tag (s := none) (by simp) ha hop hv
  have hitems : items (a :: op :: ts)
      = [.term (.node .tag [.leaf .argument a, .leaf .operator op, v])] := by
    have hnext : ∀ t ∈ ([] : List Token).head?, e.takes t.kind = false := by simp
    simpa [items] using hterm.items_append hnext
  have hjoined := (Shape.ofAnd (.ofTerm (.simple hterm))).joined_yield
  rw [hterm.yield_eq] at hjoined
  have hparse : parse t
      = .node .program [.node .tag [.leaf .argument a, .leaf .operator op, v]] := by
    rw [parse_of_held (by rw [hts]; exact hterm.held), hts, regionTrees_eq_joined, hitems, hjoined]
  obtain ⟨k, hvk, hk⟩ := hv.kind?
  refine ⟨?_, _, hparse, rfl, ?_⟩
  · rw [hparse, syntaxErrors_eq_nil_iff, Tree.faultless_of_isRegion rfl]
    simp [hterm.faultless]
  · have hparts : NodeKind.argument.isTagValue = false ∧ NodeKind.operator.isTagValue = false :=
      ⟨rfl, rfl⟩
    simp [Tree.value?, Tree.children, Tree.leaf, hparts, hvk, hk]

/-- What is read as one tag has one value behind the comparison. -/
theorem isValue_of_readsAsTag (hne : ts ≠ []) (hword : ∀ x ∈ ts, x.kind.continuesWord = true)
    {label : Text} (h : ReadsAsTag t label) : IsValue ts := by
  obtain ⟨hfault, tag, hparse, hkind, -⟩ := h
  obtain ⟨cs, rfl⟩ := Tree.exists_node_of_isKind hkind
  have hsolid : ∀ x ∈ ts, x.kind ≠ .blank ∧ x.kind.isComparison = false := fun x hx => by
    have hx := hword x hx
    cases hk : x.kind <;> simp_all [TokenKind.continuesWord, TokenKind.isComparison]
  have hheld : Held (a :: op :: ts) := by
    refine ⟨by simp [ha, TokenKind.isComparison], fun _ => ?_, held_of_forall fun x hx =>
      (hsolid x hx).2⟩
    obtain ⟨u, us, rfl⟩ := List.exists_cons_of_ne_nil hne
    exact ⟨u, us, rfl, (hsolid u (by simp)).1⟩
  rw [parse_of_held (by rw [hts]; exact hheld), hts] at hfault hparse
  have hregion : regionTrees (a :: op :: ts) = [.node .tag cs] := by simpa using hparse
  rw [syntaxErrors_eq_nil_iff, Tree.faultless_of_isRegion rfl] at hfault
  obtain ⟨o, hreads⟩ := reads_of_faultless hfault
  -- the tag is all that the region reads as, so nothing can stand behind its value
  obtain rfl : o = some (.node .tag cs) := by
    have hsqueeze := hreads.squeezeEach_regionTrees
    rw [hregion, Tree.squeezeEach_node] at hsqueeze
    cases o with
    | none => simp at hsqueeze
    | some t => simpa [Tree.squeeze, eq_comm] using hsqueeze
  obtain ⟨is, hspells, -, hyield⟩ := hreads
  obtain ⟨vs, rest, v, e, tag, js, rfl, hv, rfl, hrest⟩ :=
    exists_spelledValue_of_spells hspells ha hop
  obtain ⟨-, hnone⟩ : Item.term tag = .term (.node .tag cs) ∧ solid js = [] := by
    simpa [solid_cons (i := .term tag) rfl, Tree.yield_term (k := .tag) (Or.inl rfl)] using hyield
  have htouch : Touching rest := by
    have htouch := touching_tokenize t
    rw [hts] at htouch
    exact htouch.of_part (List.suffix_append (a :: op :: vs) rest).isInfix
  have hready : Ready rest [] :=
    ⟨⟨htouch, js, hrest, hnone⟩, fun x hx =>
      (hsolid x (List.mem_append_right vs (List.mem_of_head? hx))).1⟩
  rw [hready.nil, List.append_nil]
  exact hv.isValue

end Tag

/-! ## Arguments and comparisons -/

/-- The letters of a spelling, in any case, are those of words. -/
theorem isWordChar_of_isLower_toLower {c : Char} (h : c.toLower.isLower = true) :
    Scan.start c = .word ∧ isWordChar c = true := by
  have hletter : c.isAlpha = true := by rw [← Char.isLower_toLower_eq_isAlpha, h]
  exact ⟨start_of_isAlpha hletter, isWordChar_of_isAlpha hletter⟩

/-- An argument is read as a word. -/
theorem ofText?_of_isArgument {a : Text} (h : isArgument a = true) :
    Scan.ofText? a = some .word ∧ wordKind a = .word := by
  have halias : ∀ name ∈ everyAlias,
      name ≠ [] ∧ name.all Char.isLower = true ∧ name ≠ ['a', 'n', 'd'] ∧ name ≠ ['o', 'r'] := by
    decide +kernel
  have hmem : a.asciiLower ∈ everyAlias := by
    rw [isArgument, aliasGroup?, List.find?_isSome] at h
    obtain ⟨g, hg, hcontains⟩ := h
    exact List.mem_flatMap.2 ⟨g, hg, by simpa using hcontains⟩
  obtain ⟨hne, hlower, hand, hor⟩ := halias _ hmem
  have hletters : ∀ c ∈ a, Scan.start c = .word ∧ isWordChar c = true := fun c hc =>
    isWordChar_of_isLower_toLower (List.all_eq_true.1 hlower _ (List.mem_map_of_mem hc))
  constructor
  · cases a with
    | nil => exact absurd rfl hne
    | cons c cs =>
        rw [Scan.ofText?, (hletters c (by simp)).1]
        exact Scan.after_word fun d hd => (hletters d (by simp [hd])).2
  · simp [wordKind, hand, hor]

/-- An argument and a comparison stand before what is written as tokens of their own. -/
theorem tokenize_tag {a : Text} (ha : isArgument a = true) (op : Comparison) {t : Text}
    (ht : t.head? ≠ some '=') :
    tokenize (a ++ op.spelling.toList ++ t)
      = ⟨.word, a⟩ :: ⟨.comparison op, op.spelling.toList⟩ :: tokenize t := by
  obtain ⟨hword, hkind⟩ := ofText?_of_isArgument ha
  have hequal : ∀ c ∈ t.head?, c ≠ '=' := by
    rintro c hc rfl
    exact ht hc
  have hop : tokenize (op.spelling.toList ++ t)
      = [⟨.comparison op, op.spelling.toList⟩] ++ tokenize t := by
    cases op with
    | less =>
        exact Scan.tokenize_append (s := .angle .less .lessEqual) rfl fun c hc => by
          simp [Scan.next, hequal c hc]
    | greater =>
        exact Scan.tokenize_append (s := .angle .greater .greaterEqual) rfl fun c hc => by
          simp [Scan.next, hequal c hc]
    | _ => exact Scan.tokenize_append (s := .complete (.comparison _)) rfl fun _ _ => rfl
  have hstop : ∀ c ∈ (op.spelling.toList ++ t).head?, Scan.word.next c = none := by
    cases op <;> simp [Comparison.spelling, Scan.next] <;> decide
  rw [List.append_assoc, Scan.tokenize_append hword hstop, hop]
  simp [Scan.tokens, hkind]

/-! ## Labels -/

/-- Whether a label is read back: one in quotes ends with no backslash, and one without is read as
one value. -/
def isReadBack (label : Text) : Bool :=
  if label.isEmpty || label.any needsQuotes then label.getLast? ≠ some '\\' else isPlainValue label

section Label

variable {a : Text} (ha : isArgument a = true) (op : Comparison) {label : Text}
include ha

/-- A quoted label is always read as a tag, whose value says what the quotes hold. -/
theorem readsAsTag_quoted_iff :
    ReadsAsTag (a ++ op.spelling.toList ++ quoted label) label ↔
      label.getLast? ≠ some '\\' := by
  obtain ⟨hquoted, hclosed⟩ := tokenize_quoted label
  have hts := tokenize_tag ha op (t := quoted label) (by simp [quoted_eq])
  rw [hquoted] at hts
  have hreads := readsAsTag_of_spelledValue hts rfl rfl (.literal (k := .string) rfl hclosed)
  have hunquoted : (Tree.leaf (.literal .string) ⟨.literal .string, quoted label⟩).unquoted
      = stringContents (quoted label) := by
    simp [Tree.unquoted, Tree.leaf, Tree.text]
  rw [← stringContents_quoted_eq_iff]
  constructor
  · rintro ⟨-, tag, hparse, -, hvalue⟩
    obtain ⟨-, tag', hparse', -, hvalue'⟩ := hreads
    obtain rfl : tag = tag' := by simpa using hparse.symm.trans hparse'
    rw [hvalue, hunquoted] at hvalue'
    exact (Option.some.inj hvalue').symm
  · intro hsame
    rwa [hunquoted, hsame] at hreads

/-- A label without quotes is read as a tag just when it is one value. -/
theorem readsAsTag_plain_iff (hne : label ≠ []) (hword : ∀ c ∈ label, isWordChar c = true) :
    ReadsAsTag (a ++ op.spelling.toList ++ label) label ↔ isPlainValue label = true := by
  have hequal : label.head? ≠ some '=' := fun h => by
    have hc := hword '=' (List.mem_of_head? h)
    revert hc
    decide
  have hts := tokenize_tag ha op hequal
  have hcontinues := continuesWord_of_mem_tokenize hword
  have hnonempty : tokenize label ≠ [] := fun h => hne (by
    have htext := tokensText_tokenize label
    rw [h] at htext
    exact htext.symm)
  rw [← isValue_tokenize_iff hword hne]
  constructor
  · exact isValue_of_readsAsTag hts rfl rfl hnonempty hcontinues
  · intro hvalue
    obtain ⟨v, e, hv⟩ := hvalue.exists_spelledValue
    have hunquoted : v.unquoted = label := by
      rw [hv.unquoted_eq hcontinues, tokensText_tokenize]
    have hreads := readsAsTag_of_spelledValue hts rfl rfl hv
    rwa [hunquoted] at hreads

/-- **A label that is written as a value is read back just when `isReadBack` says so.** -/
theorem readsAsTag_writeValue_iff (label : Text) :
    ReadsAsTag (a ++ op.spelling.toList ++ writeValue label) label ↔ isReadBack label = true := by
  unfold writeValue isReadBack
  split
  · next hquotes => simpa using readsAsTag_quoted_iff ha op
  · next hquotes =>
      obtain ⟨hne, hplain⟩ : label ≠ [] ∧ ∀ c ∈ label, needsQuotes c = false := by
        simpa using hquotes
      exact readsAsTag_plain_iff ha op hne fun c hc => by
        rw [isWordChar_eq_not_needsQuotes, hplain c hc, Bool.not_false]

end Label

/-! ## Completions -/

@[simp] theorem CompletionItem.insertText_ofCandidate (c : Candidate) (written : Text)
    (priority : Nat) : (CompletionItem.ofCandidate c written priority).insertText = written := by
  unfold CompletionItem.ofCandidate CompletionItem.insertText
  split
  · next h => exact h.symm
  · rfl

theorem mem_of_mem_distinctLabels {i : CompletionItem} {is : List CompletionItem}
    {seen : List Text} (h : i ∈ distinctLabels seen is) : i ∈ is := by
  induction is generalizing seen with
  | nil => cases h
  | cons x xs ih =>
      rw [distinctLabels] at h
      split at h
      · exact List.mem_cons_of_mem _ (ih h)
      · rcases List.mem_cons.1 h with rfl | h
        · exact List.mem_cons_self
        · exact List.mem_cons_of_mem _ (ih h)

/-- Every value that is offered is a candidate, written as a value. -/
theorem exists_candidate_of_mem_completionsAt? {t : Tree} {catalog : Catalog}
    {settings : EditorSettings} {offset : Nat} {r : CompletionResult}
    (h : t.completionsAt? catalog settings offset = some r) {i : CompletionItem}
    (hi : i ∈ r.items) (hk : i.kind = .value) :
    ∃ c priority, i = .ofCandidate c (writeValue c.label) priority := by
  unfold Tree.completionsAt? at h
  split at h
  · cases h
  · split at h
    · cases h
    · next start typed hcontext =>
        cases h
        obtain ⟨g, -, hitem⟩ := List.mem_flatMap.1 hi
        obtain ⟨name, -, rfl⟩ := List.mem_map.1 hitem
        cases hk
    · next tag start typed hcontext =>
        obtain ⟨items, hitems, rfl⟩ := Option.map_eq_some_iff.1 h
        simp only [valueItems?, Option.bind_eq_bind, Option.bind_eq_some_iff, Option.pure_def,
          Option.some.injEq] at hitems
        obtain ⟨argument, -, operator, -, kind, -, candidates, -, rfl⟩ := hitems
        simp only [List.partition_eq_filter_filter, List.mem_append, List.mem_filter] at hi
        have hmem := mem_of_mem_distinctLabels (hi.elim And.left And.left)
        obtain ⟨c, -, hc⟩ := List.mem_filterMap.1 hmem
        obtain ⟨priority, -, hitem⟩ := Option.bind_eq_some_iff.1 hc
        split at hitem
        · cases hitem
        · exact ⟨c, priority, (Option.some.inj hitem).symm⟩

/-- What is typed when an item is inserted behind an argument and a comparison. -/
def completedTag (a : Text) (op : Comparison) (i : CompletionItem) : Text :=
  a ++ op.spelling.toList ++ i.insertText

/-- **Which labels a completed tag says.** Behind any argument and any comparison, the item of a
candidate makes a tag whose value says the label just when `isReadBack` accepts the label; and
every value that is offered is such an item. -/
theorem completion_reads_back_iff {a : Text} (ha : isArgument a = true) (op : Comparison) :
    (∀ (c : Candidate) (priority : Nat),
      ReadsAsTag (completedTag a op (.ofCandidate c (writeValue c.label) priority)) c.label ↔
        isReadBack c.label = true) ∧
    ∀ (t : Tree) (catalog : Catalog) (settings : EditorSettings) (offset : Nat)
      (r : CompletionResult), t.completionsAt? catalog settings offset = some r →
      ∀ i ∈ r.items, i.kind = .value →
        (ReadsAsTag (completedTag a op i) i.label ↔ isReadBack i.label = true) := by
  have hall : ∀ (c : Candidate) (priority : Nat),
      ReadsAsTag (completedTag a op (.ofCandidate c (writeValue c.label) priority)) c.label ↔
        isReadBack c.label = true := fun c priority => by
    rw [completedTag, CompletionItem.insertText_ofCandidate]
    exact readsAsTag_writeValue_iff ha op c.label
  refine ⟨hall, fun t catalog settings offset r hr i hi hk => ?_⟩
  obtain ⟨c, priority, rfl⟩ := exists_candidate_of_mem_completionsAt? hr hi hk
  exact hall c priority

theorem completion_reads_back_iff_artist :
    isArgument "artist".toList = true ∧
    (∀ (c : Candidate) (priority : Nat),
      ReadsAsTag (completedTag "artist".toList .colon
        (.ofCandidate c (writeValue c.label) priority)) c.label ↔ isReadBack c.label = true) ∧
    ∀ (t : Tree) (catalog : Catalog) (settings : EditorSettings) (offset : Nat)
      (r : CompletionResult), t.completionsAt? catalog settings offset = some r →
      ∀ i ∈ r.items, i.kind = .value →
        (ReadsAsTag (completedTag "artist".toList .colon i) i.label ↔
          isReadBack i.label = true) := by
  have h : isArgument "artist".toList = true := by decide +kernel
  exact ⟨h, completion_reads_back_iff h .colon⟩

/-- A catalog of artists with a slash or a minus sign before their names, or a backslash behind. -/
def markedArtists : Catalog :=
  { Catalog.initial with artistNames := ["/abc".toList, "-and".toList, "x \\".toList] }

/-- **Labels that are offered and not read back.** -/
theorem completion_not_read_back :
    ∃ r, (parse "a:".toList).completionsAt? markedArtists .initial 2 = some r ∧
      r.items.map CompletionItem.label = markedArtists.artistNames ∧
      ∀ i ∈ r.items, ¬ ReadsAsTag (completedTag "a".toList .colon i) i.label := by
  have ha : isArgument "a".toList = true := by decide +kernel
  have hread : ∀ name ∈ markedArtists.artistNames, isReadBack name = false := by decide +kernel
  refine ⟨⟨2, markedArtists.artistNames.map fun name =>
    .ofCandidate (.ofLabel name) (writeValue name) 10⟩, by decide +kernel, by decide +kernel, ?_⟩
  intro i hi
  obtain ⟨name, hname, rfl⟩ := List.mem_map.1 hi
  have hnot : ¬ ReadsAsTag ("a".toList ++ Comparison.colon.spelling.toList ++ writeValue name)
      name := by
    rw [readsAsTag_writeValue_iff ha, hread name hname]
    simp
  rwa [completedTag, CompletionItem.insertText_ofCandidate]

end CardQuery
