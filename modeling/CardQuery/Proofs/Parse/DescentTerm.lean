import CardQuery.Proofs.Parse.Descent
import CardQuery.Proofs.Parse.Report
import CardQuery.Proofs.Parse.Spelling
import CardQuery.Proofs.Query.Trim

/-!
# Terms by recursive descent

A reader is followed through a region by the trees that it has built there: the tokens left begin
where these trees end, and the remarks are the problems of the trees, each shown at the token it
was met at. `Frame.reader` is the reader after such trees, and each step gives the one after some
more.

Main statement: a term without parentheses is read as it is gathered (`readsTerm`).
-/

set_option autoImplicit false

namespace CardQuery

open CardQuery.Tree (nodeCount widthOf)

/-! ## Where a problem is shown -/

theorem spanAt_of_tokens {before : List Token} (h : ∀ t ∈ before, 0 < t.width) (ts : List Token) :
    spanAt (placeTokens 0 (before ++ ts)) (tokensWidth before)
      = ⟨tokensWidth before, tokensWidth before + (ts.head?.map Token.width).getD 0⟩ := by
  have hbefore : (placeTokens 0 before).find? (fun p => p.start = tokensWidth before) = none := by
    rw [List.find?_eq_none]
    intro p hp
    obtain ⟨hmem, -, hstop⟩ := placeTokens_bounds hp
    have hwide := h _ hmem
    simp only [PlacedToken.span] at hstop
    simp only [decide_eq_true_eq]
    omega
  rw [spanAt, placeTokens_append, List.find?_append, hbefore, Nat.zero_add]
  cases ts <;> simp [placeTokens, PlacedToken.span]

/-! ## A reader in a region -/

/-- The marks of tokens among which there is no header. -/
def unmarked (start : Nat) (ts : List Token) : List MarkedToken :=
  (placeTokens start ts).map fun p => ⟨p, false⟩

/-- What stays while a region is read: the tokens of the text, and the marks behind the region. -/
structure Frame where
  whole : List Token
  rest : List MarkedToken

namespace Frame

/-- Whether tokens at a byte are the last of the region. Behind them is the end of the text or a
header, and a header has a blank before it. -/
structure Holds (F : Frame) (start : Nat) (ts : List Token) : Prop where
  wide : ∀ t ∈ F.whole, 0 < t.width
  around : ∃ before, F.whole = before ++ (ts ++ F.rest.map MarkedToken.token) ∧
    start = tokensWidth before
  placed : F.rest.map MarkedToken.placed
    = placeTokens (start + tokensWidth ts) (F.rest.map MarkedToken.token)
  header : ∀ m ∈ F.rest.head?, m.header = true ∧ m.kind = .word
  edge : F.rest ≠ [] → ∀ t ∈ ts.getLast?, t.isBlank = true

variable {F : Frame} {d o : Nat} {e : List Remark} {xs : List Tree} {t : Token} {ts : List Token}

theorem Holds.drop {used : List Token} (h : F.Holds o (used ++ ts)) :
    F.Holds (o + tokensWidth used) ts where
  wide := h.wide
  around := by
    obtain ⟨before, hwhole, hstart⟩ := h.around
    exact ⟨before ++ used, by simp [hwhole], by rw [tokensWidth_append, hstart]⟩
  placed := by
    have hplaced := h.placed
    rwa [tokensWidth_append, ← Nat.add_assoc] at hplaced
  header := h.header
  edge hrest t ht := h.edge hrest t (by
    rw [List.getLast?_append, Option.mem_def.1 ht]
    rfl)

/-- The tokens behind trees that are built of the others. -/
theorem Holds.behind {used later : List Token} {ys : List Tree} (h : F.Holds (o + widthOf xs) ts)
    (hts : ts = used ++ later) (hwidth : widthOf ys = tokensWidth used) :
    F.Holds (o + widthOf (xs ++ ys)) later := by
  rw [Tree.widthOf_append, hwidth, ← Nat.add_assoc]
  rw [hts] at h
  exact h.drop

/-- Behind a token that is not blank there is no header. -/
theorem Holds.rest_eq_nil (ws : List Token) (h : F.Holds o (ws ++ [t])) (ht : t.isBlank = false) :
    F.rest = [] := by
  by_contra hrest
  have hblank := h.edge hrest t (by simp)
  rw [ht] at hblank
  cases hblank

/-- The problems as they are shown. -/
def shown (F : Frame) (ps : List PlacedProblem) : List Remark :=
  ps.map fun p => ⟨p.problem.message, spanAt (placeTokens 0 F.whole) p.start⟩

@[simp] theorem shown_nil (F : Frame) : F.shown [] = [] := rfl

@[simp] theorem shown_append (F : Frame) (ps qs : List PlacedProblem) :
    F.shown (ps ++ qs) = F.shown ps ++ F.shown qs :=
  List.map_append

/-- The reader that has built trees from the byte `start` on and has the tokens `ts` left. -/
def reader (F : Frame) (depth start : Nat) (remarks : List Remark) (trees : List Tree)
    (ts : List Token) : Reader where
  ahead := unmarked (start + widthOf trees) ts ++ F.rest
  depth := depth
  stop := tokensWidth F.whole
  remarks := remarks ++ F.shown (problemsOf start trees)

/-- Where the trees begin makes no difference, if what is built before is counted in. -/
theorem reader_append (ys : List Tree) : F.reader d o e (xs ++ ys) ts
    = F.reader d (o + widthOf xs) (e ++ F.shown (problemsOf o xs)) ys ts := by
  simp [reader, Tree.widthOf_append, Nat.add_assoc]

/-- Only the width and the problems of what is built matter. -/
theorem reader_congr {ys zs : List Tree} (hwidth : widthOf ys = widthOf zs)
    (hproblems : ∀ start, problemsOf start ys = problemsOf start zs) :
    F.reader d o e (xs ++ ys) ts = F.reader d o e (xs ++ zs) ts := by
  simp [reader, Tree.widthOf_append, hwidth, hproblems]

/-- A plain node around tokens changes nothing. -/
theorem reader_flat {k : NodeKind} (hk : k.isPlain = true) (ws : List Token) :
    F.reader d o e (xs ++ [.flat k ws]) ts = F.reader d o e (xs ++ ws.map .token) ts := by
  refine reader_congr ?_ fun start => ?_
  · simp [Tree.flat, widthOf, Tree.width]
  · rw [problemsOf_map_token, problemsOf_cons, problemsFrom_flat start hk, problemsOf_nil]
    rfl

theorem here_reader (h : F.Holds (o + widthOf xs) ts) : (F.reader d o e xs ts).here
    = spanAt (placeTokens 0 F.whole) (o + widthOf xs) := by
  obtain ⟨before, hwhole, hstart⟩ := h.around
  have hwide : ∀ t ∈ before, 0 < t.width := fun t ht => h.wide t (by simp [hwhole, ht])
  have hspan := spanAt_of_tokens hwide (ts ++ F.rest.map MarkedToken.token)
  rw [← hwhole, ← hstart] at hspan
  rw [hspan, Reader.here, reader]
  cases ts with
  | cons t ts => rfl
  | nil =>
      cases hrest : F.rest with
      | nil =>
          have hstop : tokensWidth F.whole = o + widthOf xs := by
            rw [hstart, hwhole, hrest]
            simp
          simp [unmarked, placeTokens, hstop]
      | cons m rest =>
          have hplaced := h.placed
          rw [hrest, List.map_cons, List.map_cons, placeTokens, List.cons.injEq] at hplaced
          have hm : m.placed.start = o + widthOf xs := congrArg PlacedToken.start hplaced.1
          show m.placed.span = ⟨o + widthOf xs, o + widthOf xs + m.token.width⟩
          rw [PlacedToken.span, hm]
          rfl

theorem remark_reader (h : F.Holds (o + widthOf xs) ts) (p : Problem) :
    (F.reader d o e xs ts).remark p.message
      = { F.reader d o e xs ts with
          remarks := e ++ F.shown (problemsOf o xs ++ placeAt (o + widthOf xs) [p]) } := by
  rw [Reader.remark, here_reader h]
  simp [reader, shown, placeAt]

/-! ## Nodes around what is built -/

/-- A node in which nothing is wrong with itself has the problems of its children. -/
theorem reader_node {k : NodeKind} (hopening : openingProblem? k xs = none)
    (hclosing : closingProblem? k xs = none) :
    F.reader d o e [.node k xs] ts = F.reader d o e xs ts := by
  simp [reader, problemsFrom_node, hopening, hclosing, widthOf, Tree.width]

/-- A node that lacks a part at its end gets a remark there. -/
theorem remark_node {k : NodeKind} {p : Problem} (h : F.Holds (o + widthOf xs) ts)
    (hopening : openingProblem? k xs = none) (hclosing : closingProblem? k xs = some p) :
    (F.reader d o e xs ts).remark p.message = F.reader d o e [.node k xs] ts := by
  rw [remark_reader h]
  simp [reader, problemsFrom_node, hopening, hclosing, widthOf, Tree.width]

/-! ## What is ahead -/

@[simp] theorem kind?_reader_cons : (F.reader d o e xs (t :: ts)).kind? = some t.kind := rfl

@[simp] theorem atHeader_reader_cons : (F.reader d o e xs (t :: ts)).atHeader = false := rfl

theorem adjacent?_reader (h : F.Holds (o + widthOf xs) (t :: ts)) (ht : t.isBlank = false) :
    (F.reader d o e xs (t :: ts)).adjacent? = ts.head?.map Token.kind := by
  cases ts with
  | cons u ts => rfl
  | nil =>
      have hrest := Holds.rest_eq_nil [] h ht
      simp [Reader.adjacent?, reader, unmarked, placeTokens, hrest]

/-! ## Single steps -/

@[simp] theorem bump_reader : (F.reader d o e xs (t :: ts)).bump
    = ([.token t], F.reader d o e (xs ++ [.token t]) ts) := by
  simp [Reader.bump, reader, unmarked, placeTokens, MarkedToken.token, Tree.widthOf_append, widthOf,
    Tree.width, Nat.add_assoc]

theorem bumpAsWord_reader : (F.reader d o e xs (t :: ts)).bumpAsWord
    = ([.token ⟨.word, t.text⟩], F.reader d o e (xs ++ [.token ⟨.word, t.text⟩]) ts) := by
  simp [Reader.bumpAsWord, reader, unmarked, placeTokens, MarkedToken.token, Tree.widthOf_append,
    widthOf, Tree.width, Token.width, Nat.add_assoc]

/-- A token in a node of its own brings what is wrong with this node. -/
theorem reader_leaf {k : NodeKind} {ps : List Problem}
    (h : ∀ start, problemsFrom start (.leaf k t) = placeAt start ps) :
    F.reader d o e (xs ++ [.leaf k t]) ts
      = { F.reader d o e (xs ++ [.token t]) ts with
          remarks := e ++ F.shown (problemsOf o xs ++ placeAt (o + widthOf xs) ps) } := by
  simp [reader, Tree.widthOf_append, h, Tree.width_leaf, widthOf, Tree.width]

theorem tokenNode_reader {k : NodeKind} (hk : k.isPlain = true) :
    (F.reader d o e xs (t :: ts)).tokenNode k
      = ([.leaf k t], F.reader d o e (xs ++ [.leaf k t]) ts) := by
  rw [Reader.tokenNode, bump_reader]
  exact Prod.ext rfl (reader_flat hk [t]).symm

theorem errorBump_reader {p : Problem} (h : F.Holds (o + widthOf xs) (t :: ts))
    (hp : t.kind.problem? = some p) :
    (F.reader d o e xs (t :: ts)).errorBump p.message
      = ([.leaf .error t], F.reader d o e (xs ++ [.leaf .error t]) ts) := by
  rw [Reader.errorBump, remark_reader h, reader_leaf fun start => problemsFrom_leaf_error start hp]
  simp [reader, Reader.bump, unmarked, placeTokens, MarkedToken.token, Tree.widthOf_append,
    Tree.leaf, widthOf, Tree.width, Nat.add_assoc]

theorem literal_reader (h : F.Holds (o + widthOf xs) (t :: ts)) (k : LiteralKind) :
    (F.reader d o e xs (t :: ts)).literal k
      = ([.leaf (.literal k) t], F.reader d o e (xs ++ [.leaf (.literal k) t]) ts) := by
  rw [Reader.literal, remark_reader h,
    reader_leaf fun start => problemsFrom_leaf_literal start k t]
  by_cases hclosed : isClosedLiteral k t.text = true <;>
    simp [reader, Reader.tokenNode, Reader.bump, unmarked, placeTokens, MarkedToken.token,
      Tree.widthOf_append, literalProblems, Tree.leaf, widthOf, Tree.width, Nat.add_assoc, hclosed]

end Frame

/-- Marks of tokens are taken as their tokens are. -/
theorem takeWhile_unmarked {p : MarkedToken → Bool} {q : Token → Bool}
    (hpq : ∀ t start, p ⟨⟨t, start⟩, false⟩ = q t) (start : Nat) (ts : List Token)
    {rest : List MarkedToken} (hrest : ts.dropWhile q = [] → ∀ m ∈ rest.head?, p m = false) :
    (unmarked start ts ++ rest).takeWhile p = unmarked start (ts.takeWhile q) ∧
      (unmarked start ts ++ rest).dropWhile p
        = unmarked (start + tokensWidth (ts.takeWhile q)) (ts.dropWhile q) ++ rest := by
  induction ts generalizing start with
  | nil =>
      cases rest with
      | nil => exact ⟨rfl, rfl⟩
      | cons m rest =>
          have hm := hrest rfl m rfl
          simp [unmarked, placeTokens, hm]
  | cons t ts ih =>
      have hhead : unmarked start (t :: ts)
          = ⟨⟨t, start⟩, false⟩ :: unmarked (start + t.width) ts :=
        rfl
      by_cases ht : q t = true
      · have hmore := ih (start + t.width) (by simpa [ht] using hrest)
        simp [hhead, hpq, ht, hmore, tokensWidth, Nat.add_assoc]
        rfl
      · simp [hhead, hpq, ht, tokensWidth]
        rfl

theorem map_token_unmarked (start : Nat) (ts : List Token) :
    (unmarked start ts).map MarkedToken.token = ts := by
  induction ts generalizing start with
  | nil => rfl
  | cons t ts ih => exact congrArg (t :: ·) (ih _)

namespace Frame

variable {F : Frame} {d o : Nat} {e : List Remark} {xs : List Tree} {t : Token} {ts : List Token}

/-- Tokens of interest are taken up to the first that is not of interest. -/
theorem bumpWhile_reader {p : MarkedToken → Bool} {q : Token → Bool}
    (hpq : ∀ t start, p ⟨⟨t, start⟩, false⟩ = q t)
    (hrest : ts.dropWhile q = [] → ∀ m ∈ F.rest.head?, p m = false) :
    (F.reader d o e xs ts).bumpWhile p = ((ts.takeWhile q).map .token,
      F.reader d o e (xs ++ (ts.takeWhile q).map .token) (ts.dropWhile q)) := by
  obtain ⟨htake, hdrop⟩ := takeWhile_unmarked hpq (o + widthOf xs) ts hrest
  have htokens : (unmarked (o + widthOf xs) (ts.takeWhile q)).map (fun m => Tree.token m.token)
      = (ts.takeWhile q).map .token := by
    conv_rhs => rw [← map_token_unmarked (o + widthOf xs) (ts.takeWhile q), List.map_map]
    rfl
  rw [Reader.bumpWhile, reader]
  simp only [htake, hdrop, htokens]
  simp [reader, Tree.widthOf_append, widthOf_map_token, Nat.add_assoc]

theorem skipBlanks_reader (h : F.Holds (o + widthOf xs) ts) :
    (F.reader d o e xs ts).skipBlanks = ((ts.takeWhile Token.isBlank).map .token,
      F.reader d o e (xs ++ (ts.takeWhile Token.isBlank).map .token)
        (ts.dropWhile Token.isBlank)) := by
  refine bumpWhile_reader (fun _ _ => rfl) fun _ m hm => ?_
  have hword : m.token.kind = .word := (h.header m hm).2
  simp [Token.isBlank, hword]

end Frame

/-! ## The value of a tag -/

/-- Whether a token can be one of several in a value. -/
def isValueToken (t : Token) : Bool :=
  t.kind = .word || t.kind = .minus

/-- Whether the tokens behind a comparison begin with a value, if they do at all, and `later` is
what stands behind it. -/
structure TakesValue (ts : List Token) (value : Option Tree) (later : List Token) : Prop where
  used : ∃ used, ts = used ++ later ∧ widthOf value.toList = tokensWidth used
  isValue : ∀ v ∈ value, v.kind?.any NodeKind.isTagValue = true
  gathered : ∀ sign a op, (Draft.tag sign a op).run ts
    = Draft.tagOf sign (.leaf .argument a :: .leaf .operator op :: value.toList) :: items later

/-- What a further token makes of a tag without a value, when nothing more belongs to it. -/
theorem takesValue_of_extend {t : Token} {v : Tree} {ts : List Token}
    (hv : v.kind?.any NodeKind.isTagValue = true) (hwidth : v.width = t.width)
    (h : ∀ sign a op, (Draft.tag sign a op).extend t
      = some (.complete (Draft.tagOf sign [.leaf .argument a, .leaf .operator op, v]))) :
    TakesValue (t :: ts) (some v) ts where
  used := ⟨[t], rfl, by simp [widthOf, tokensWidth, hwidth]⟩
  isValue := by simpa using hv
  gathered sign a op := by
    rw [Draft.run, h]
    exact Draft.run_stop fun _ _ => rfl

theorem takesValue_words {t : Token} {ts : List Token} (ht : isValueToken t = true) :
    TakesValue (t :: ts) (some (.flat .value (t :: ts.takeWhile isValueToken)))
      (ts.dropWhile isValueToken) where
  used := by
    refine ⟨t :: ts.takeWhile isValueToken, by simp, ?_⟩
    simp [Tree.flat, widthOf, Tree.width, widthOf_map_token, tokensWidth]
  isValue := by simp [Tree.flat, NodeKind.isTagValue]
  gathered sign a op := by
    have hwords : ∀ x ∈ ts.takeWhile isValueToken, x.kind = .word ∨ x.kind = .minus := by
      intro x hx
      simpa [isValueToken] using List.mem_takeWhile_imp hx
    have hfirst : (Draft.tag sign a op).extend t = some (.value sign a op [t]) := by
      rcases (by simpa [isValueToken] using ht : t.kind = .word ∨ t.kind = .minus) with hk | hk <;>
        simp [Draft.extend, hk]
    have hstop : ∀ x ∈ (ts.dropWhile isValueToken).head?,
        (Draft.value sign a op (t :: ts.takeWhile isValueToken)).extend x = none := by
      intro x hx
      have hx' := List.head?_dropWhile_not isValueToken ts
      rw [Option.mem_def.1 hx] at hx'
      cases hk : x.kind <;> simp_all [Draft.extend, isValueToken]
    rw [Draft.run, hfirst]
    conv_lhs => rw [← List.takeWhile_append_dropWhile (p := isValueToken) (l := ts)]
    simp only
    rw [Draft.run_after (Draft.after_words hwords), List.singleton_append, Draft.run_stop hstop]
    rfl

theorem takesValue_none {ts : List Token}
    (h : ∀ t ∈ ts.head?, ∀ sign a op, (Draft.tag sign a op).extend t = none) :
    TakesValue ts none ts where
  used := ⟨[], rfl, rfl⟩
  isValue := by simp
  gathered sign a op := Draft.run_stop fun t ht => h t ht sign a op

namespace Frame

variable {F : Frame} {d o : Nat} {e : List Remark} {xs : List Tree} {t : Token} {ts : List Token}

/-- The reader behind the value of a tag, which may be missing. -/
def behindValue (F : Frame) (d o : Nat) (e : List Remark) (xs : List Tree) (value : Option Tree)
    (later : List Token) : Reader :=
  match value with
  | some v => F.reader d o e (xs ++ [v]) later
  | none => (F.reader d o e xs later).remark Problem.missingValue.message

/-- Words and minus signs in a row are the value of a tag. -/
theorem value_words
    (hrest : (∀ x ∈ t :: ts, x.isBlank = false) → F.rest = []) (ht : isValueToken t = true) :
    (F.reader d o e xs (t :: ts)).value
      = ([.flat .value (t :: ts.takeWhile isValueToken)],
        F.reader d o e (xs ++ [.flat .value (t :: ts.takeWhile isValueToken)])
          (ts.dropWhile isValueToken)) := by
  have hwords : (F.reader d o e xs (t :: ts)).bumpWhile
        (fun m => m.kind = .word || m.kind = .minus)
      = (((t :: ts).takeWhile isValueToken).map .token,
        F.reader d o e (xs ++ ((t :: ts).takeWhile isValueToken).map .token)
          ((t :: ts).dropWhile isValueToken)) :=
    bumpWhile_reader (fun _ _ => rfl) (by
      intro hdrop
      have hsolid : ∀ x ∈ t :: ts, x.isBlank = false := by
        intro x hx
        have hx' := List.dropWhile_eq_nil_iff.1 hdrop x hx
        rcases (by simpa [isValueToken] using hx' : x.kind = .word ∨ x.kind = .minus) with
          hk | hk <;> simp [Token.isBlank, hk]
      simp [hrest hsolid])
  rw [List.takeWhile_cons_of_pos ht, List.dropWhile_cons_of_pos ht,
    ← reader_flat (k := .value) rfl] at hwords
  have hkind : (F.reader d o e xs (t :: ts)).kind? = some .word ∨
      (F.reader d o e xs (t :: ts)).kind? = some .minus := by
    simpa [isValueToken] using ht
  rcases hkind with hkind | hkind <;>
    · simp only [Reader.value, hkind, atHeader_reader_cons, Bool.false_eq_true, if_false, hwords]
      rfl

theorem exists_takesValue (ts : List Token) : ∃ value later, TakesValue ts value later ∧
    ∀ {F : Frame} {d o : Nat} {e : List Remark} {xs : List Tree}, F.Holds (o + widthOf xs) ts →
      ((∀ t ∈ ts, t.isBlank = false) → F.rest = []) →
      (F.reader d o e xs ts).value = (value.toList, F.behindValue d o e xs value later) := by
  cases ts with
  | nil =>
      refine ⟨none, [], takesValue_none (by simp), fun _ hrest => ?_⟩
      simp [Reader.value, Reader.kind?, reader, unmarked, placeTokens, hrest (by simp), behindValue]
  | cons t ts =>
      cases hk : t.kind with
      | literal k =>
          refine ⟨_, _, takesValue_of_extend (v := .leaf (.literal k) t) rfl
            (Tree.width_leaf _ t) (by simp [Draft.extend, hk]), fun h _ => ?_⟩
          rw [Reader.value, kind?_reader_cons, hk]
          exact literal_reader h k
      | keyword c =>
          refine ⟨_, _, takesValue_of_extend (v := .leaf .value ⟨.word, t.text⟩) rfl
            (Tree.width_leaf _ _) (by simp [Draft.extend, hk]), fun {F d o e xs} _ _ => ?_⟩
          rw [Reader.value, kind?_reader_cons, hk]
          have hnode : F.reader d o e (xs ++ [.flat .value [⟨.word, t.text⟩]]) ts
              = F.reader d o e (xs ++ [.token ⟨.word, t.text⟩]) ts :=
            reader_flat rfl [⟨.word, t.text⟩]
          simp only [bumpAsWord_reader]
          exact Prod.ext rfl hnode.symm
      | word | minus =>
          have ht : isValueToken t = true := by simp [isValueToken, hk]
          exact ⟨_, _, takesValue_words ht, fun _ hrest => value_words hrest ht⟩
      | _ =>
          refine ⟨none, _, takesValue_none (by simp [Draft.extend, hk]), fun _ _ => ?_⟩
          rw [Reader.value, kind?_reader_cons, hk]
          rfl

end Frame

/-! ## Terms -/

/-- Whether a row of tokens begins with a term, and `later` is what stands behind it. -/
structure TakesTerm (ts : List Token) (tree : Tree) (later : List Token) : Prop where
  isNode : tree.isNode = true
  used : ∃ used, used ≠ [] ∧ ts = used ++ later ∧ tree.width = tokensWidth used
  gathered : items ts = .term tree :: items later

theorem takesTerm_flat {t : Token} {k : NodeKind} {ts : List Token}
    (h : Draft.start t = .complete (.term (.leaf k t))) : TakesTerm (t :: ts) (.leaf k t) ts where
  isNode := rfl
  used := ⟨[t], by simp, rfl, by simp [tokensWidth, Tree.width_leaf]⟩
  gathered := by
    rw [items_cons, h]
    exact Draft.run_stop fun _ _ => rfl

/-- A tag without a comparison: a sign with the term behind it, if there is one. -/
theorem takesTerm_signed {m : Token} {used ts : List Token} {parts : List Tree} {dr : Draft}
    (hm : m.kind = .minus) (hwidth : widthOf parts = tokensWidth used)
    (hdraft : (Draft.minus m).after used = some dr) (hstop : ∀ x ∈ ts.head?, dr.extend x = none)
    (hfinish : dr.finish (ts.head?.map Token.kind) = Draft.tagOf (some m) parts) :
    TakesTerm (m :: used ++ ts) (.node .tag (.leaf .sign m :: parts)) ts where
  isNode := rfl
  used := ⟨m :: used, by simp, rfl, by
    simp [Tree.width, widthOf, Tree.width_leaf, tokensWidth, hwidth]⟩
  gathered := by
    have hstart : Draft.start m = .minus m := by simp [Draft.start, hm]
    rw [items_of_after (by rwa [hstart]) hstop, hfinish]
    rfl

/-- The parts of a tag with a comparison. -/
def comparisonParts (sign : Option Token) (w op : Token) (value : Option Tree) : List Tree :=
  sign.toList.map (.leaf .sign) ++ .leaf .argument w :: .leaf .operator op :: value.toList

/-- A tag with a comparison lacks its value or nothing. -/
theorem closingProblem?_comparisonParts (sign : Option Token) (w op : Token) {value : Option Tree}
    (hvalue : ∀ v ∈ value, v.kind?.any NodeKind.isTagValue = true) :
    closingProblem? .tag (comparisonParts sign w op value)
      = if value.isSome then none else some .missingValue := by
  cases value with
  | none =>
      cases sign <;>
        simp [closingProblem?, comparisonParts, Tree.kind?_leaf, NodeKind.isTagValue]
  | some v =>
      obtain ⟨k, hk, hpart⟩ := (Option.any_eq_true _ _).1 (hvalue v rfl)
      cases sign <;>
        simp [closingProblem?, comparisonParts, Tree.kind?_leaf, hk, hpart]

theorem takesTerm_tag (sign : Option Token) {w op : Token} {value : Option Tree}
    {ts later : List Token} (hsign : ∀ m ∈ sign, m.kind = .minus) (hw : w.kind = .word)
    (hop : op.kind.isComparison = true) (h : TakesValue ts value later) :
    TakesTerm (sign.toList ++ w :: op :: ts) (.node .tag (comparisonParts sign w op value))
      later where
  isNode := rfl
  used := by
    obtain ⟨used, rfl, hwidth⟩ := h.used
    refine ⟨sign.toList ++ w :: op :: used, by simp, by simp, ?_⟩
    cases sign <;>
      simp [comparisonParts, Tree.width, widthOf, Tree.width_leaf, tokensWidth, hwidth]
  gathered := by
    obtain ⟨c, hc⟩ : ∃ c, op.kind = .comparison c := by
      cases hk : op.kind <;> simp_all [TokenKind.isComparison]
    have hrun : items (sign.toList ++ w :: op :: ts) = (Draft.tag sign w op).run ts := by
      cases sign with
      | none => simp [items, Draft.start, hw, Draft.run, Draft.extend, hc]
      | some m =>
          have hm : m.kind = .minus := hsign m rfl
          simp [items, Draft.start, hm, hw, Draft.run, Draft.extend, hc]
    rw [hrun, h.gathered]
    rfl

namespace Frame

variable {F : Frame} {d o : Nat} {e : List Remark} {xs : List Tree} {t : Token} {ts : List Token}

theorem comparisonFollows_reader (h : F.Holds (o + widthOf xs) (t :: ts)) (ht : t.isBlank = false) :
    (F.reader d o e xs (t :: ts)).comparisonFollows
      = ts.head?.any fun u => u.kind.isComparison := by
  rw [Reader.comparisonFollows, adjacent?_reader h ht, Option.any_map]

theorem Holds.cons (h : F.Holds o (t :: ts)) : F.Holds (o + t.width) ts := by
  have hdrop : F.Holds (o + tokensWidth [t]) ts := h.drop
  simpa [tokensWidth] using hdrop

/-- Behind a token that is not blank there is no header before a blank. -/
theorem Holds.solid (h : F.Holds o (t :: ts)) (ht : t.isBlank = false)
    (hts : ∀ x ∈ ts, x.isBlank = false) : F.rest = [] := by
  by_contra hrest
  obtain ⟨x, hx⟩ : ∃ x, (t :: ts).getLast? = some x := ⟨_, List.getLast?_eq_some_getLast (by simp)⟩
  have hblank := h.edge hrest x hx
  rcases List.mem_cons.1 (List.mem_of_getLast? hx) with rfl | hmem
  · rw [ht] at hblank
    cases hblank
  · rw [hts x hmem] at hblank
    cases hblank

theorem isBlank_of_isComparison {op : Token} (hop : op.kind.isComparison = true) :
    op.isBlank = false := by
  cases hk : op.kind <;> simp_all [TokenKind.isComparison, Token.isBlank]

/-- An argument and a comparison are read with the value behind them, and make a tag. -/
theorem exists_tag (w op : Token) (ts : List Token) (hop : op.kind.isComparison = true) :
    ∃ value later, TakesValue ts value later ∧ ∀ {F : Frame} {d o : Nat} {e : List Remark}
      (sign : Option Token), F.Holds (o + widthOf (sign.toList.map (.leaf .sign))) (w :: op :: ts) →
      ∃ parts, sign.toList.map (.leaf .sign) ++ parts = comparisonParts sign w op value ∧
        (F.reader d o e (sign.toList.map (.leaf .sign)) (w :: op :: ts)).tagBody
          = (parts, F.reader d o e [.node .tag (comparisonParts sign w op value)] later) := by
  obtain ⟨value, later, htakes, hvalue⟩ := exists_takesValue ts
  refine ⟨value, later, htakes, fun {F d o e} sign h => ?_⟩
  refine ⟨.leaf .argument w :: .leaf .operator op :: value.toList, rfl, ?_⟩
  have hparts : F.Holds (o + widthOf (sign.toList.map (.leaf .sign)
      ++ [.leaf .argument w] ++ [.leaf .operator op])) ts := by
    have hcons := h.cons.cons
    simpa [Tree.widthOf_append, widthOf, Tree.width_leaf, Nat.add_assoc] using hcons
  have hrest : (∀ x ∈ ts, x.isBlank = false) → F.rest = [] :=
    h.cons.solid (isBlank_of_isComparison hop)
  simp only [Reader.tagBody, tokenNode_reader (k := .argument) rfl,
    tokenNode_reader (k := .operator) rfl, hvalue hparts hrest]
  refine Prod.ext rfl ?_
  have hclosing := closingProblem?_comparisonParts sign w op htakes.isValue
  cases value with
  | some v =>
      have hnode : F.reader d o e [.node .tag (comparisonParts sign w op (some v))] later
          = F.reader d o e (comparisonParts sign w op (some v)) later := reader_node rfl hclosing
      rw [hnode]
      simp [behindValue, comparisonParts]
  | none =>
      obtain ⟨used, rfl, hused⟩ := htakes.used
      have hlater := hparts.drop
      rw [← hused] at hlater
      have hnode : (F.reader d o e (comparisonParts sign w op none) later).remark
            Problem.missingValue.message
          = F.reader d o e [.node .tag (comparisonParts sign w op none)] later :=
        remark_node (by simpa [comparisonParts, widthOf] using hlater) rfl hclosing
      rw [← hnode]
      simp [behindValue, comparisonParts]

end Frame

/-! ## Rules for terms -/

/-- Whether a rule reads the term that a row begins with. -/
structure ReadsTerm (rule : Reader → List Tree × Reader) (ts : List Token) (tree : Tree)
    (later : List Token) : Prop extends TakesTerm ts tree later where
  result : ∀ {F : Frame} {d o : Nat} {e : List Remark}, F.Holds o ts →
    rule (F.reader d o e [] ts) = ([tree], F.reader d o e [tree] later)

section Rules

variable {t : Token}

theorem isBlank_of_kind {k : TokenKind} (ht : t.kind = k) (hk : k ≠ .blank) :
    t.isBlank = false := by
  simp [Token.isBlank, ht, hk]

theorem exists_wordTerm (ht : t.kind = .word) (ts : List Token) :
    ∃ tree later, ReadsTerm Reader.wordTerm (t :: ts) tree later := by
  have hblank := isBlank_of_kind ht (by decide)
  cases hnext : ts.head?.any fun u => u.kind.isComparison with
  | true =>
      obtain ⟨op, hhead, hop⟩ := (Option.any_eq_true _ _).1 hnext
      obtain ⟨ts, rfl⟩ : ∃ rest, ts = op :: rest := by
        cases ts <;> simp_all
      obtain ⟨value, later, htakes, htag⟩ := Frame.exists_tag t op ts hop
      refine ⟨_, later, takesTerm_tag none (by simp) ht hop htakes, fun {F d o e} h => ?_⟩
      obtain ⟨parts, hparts, hbody⟩ := htag (d := d) (e := e) none h
      have hfollows : (F.reader d o e [] (t :: op :: ts)).comparisonFollows = _ :=
        Frame.comparisonFollows_reader h hblank
      obtain rfl : parts = comparisonParts none t op value := hparts
      simp only [Reader.wordTerm, hfollows, hnext, if_true]
      rw [show F.reader d o e [] _ = F.reader d o e ((none : Option Token).toList.map
        (Tree.leaf .sign)) _ from rfl, hbody]
  | false =>
      have hstop : ∀ u ∈ ts.head?, (Draft.word none t).extend u = none := by
        intro u hu
        rw [Option.mem_def.1 hu] at hnext
        cases hk : u.kind <;> simp_all [Draft.extend, TokenKind.isComparison]
      refine ⟨.leaf .argument t, ts, ⟨rfl, ⟨[t], by simp, rfl, ?_⟩, ?_⟩, fun {F d o e} h => ?_⟩
      · simp [tokensWidth, Tree.width_leaf]
      · have hstart : Draft.start t = .word none t := by simp [Draft.start, ht]
        rw [items_cons, hstart, Draft.run_stop hstop]
        rfl
      · have hfollows : (F.reader d o e [] (t :: ts)).comparisonFollows = _ :=
          Frame.comparisonFollows_reader h hblank
        simp only [Reader.wordTerm, hfollows, hnext, Bool.false_eq_true, if_false]
        exact Frame.tokenNode_reader rfl

end Rules

/-! ### A sign -/

section Sign

variable {t u : Token} {ts : List Token} (ht : t.kind = .minus)
include ht

theorem isBlank_sign : t.isBlank = false :=
  isBlank_of_kind ht (by decide)

/-- A parenthesis behind a sign makes it an error. -/
theorem readsTerm_negatedClause (hparen : ts.head?.map Token.kind = some .leftParen) :
    ReadsTerm Reader.signedTerm (t :: ts) (.leaf .error t) ts where
  isNode := rfl
  used := ⟨[t], by simp, rfl, by simp [tokensWidth, Tree.width_leaf]⟩
  gathered := by
    have hstart : Draft.start t = .minus t := by simp [Draft.start, ht]
    have hstop : ∀ u ∈ ts.head?, (Draft.minus t).extend u = none := by
      intro u hu
      rw [Option.mem_def.1 hu, Option.map_some, Option.some.injEq] at hparen
      simp [Draft.extend, hparen]
    rw [items_cons, hstart, Draft.run_stop hstop, Draft.finish, if_pos hparen]
  result {F d o e} h := by
    have hadjacent : (F.reader d o e [] (t :: ts)).adjacent? = _ :=
      Frame.adjacent?_reader h (isBlank_sign ht)
    simp only [Reader.signedTerm, hadjacent, hparen, if_true]
    exact Frame.errorBump_reader h (by rw [ht]; rfl)

/-- The body of a signed term is read behind the sign. -/
theorem signedTerm_reader {F : Frame} {d o : Nat} {e : List Remark} (h : F.Holds o (t :: ts))
    (hparen : ts.head?.map Token.kind ≠ some .leftParen) {body : List Tree} {r : Reader}
    (hbody : (F.reader d o e [.leaf .sign t] ts).signedBody = (body, r)) :
    (F.reader d o e [] (t :: ts)).signedTerm = ([.node .tag (.leaf .sign t :: body)], r) := by
  have hadjacent : (F.reader d o e [] (t :: ts)).adjacent? = _ :=
    Frame.adjacent?_reader h (isBlank_sign ht)
  have hsign : (F.reader d o e [] (t :: ts)).tokenNode .sign
      = ([.leaf .sign t], F.reader d o e [.leaf .sign t] ts) := Frame.tokenNode_reader rfl
  simp only [Reader.signedTerm, hadjacent, hparen, if_false, hsign, hbody]
  rfl

/-- Without a term behind it a sign is a tag by itself. -/
theorem readsTerm_loneSign (hparen : ts.head?.map Token.kind ≠ some .leftParen)
    (hnext : ∀ u ∈ ts.head?, (Draft.minus t).extend u = none) :
    ReadsTerm Reader.signedTerm (t :: ts) (.node .tag [.leaf .sign t]) ts where
  toTakesTerm := by
    have hdraft : (Draft.minus t).after [] = some (.minus t) := rfl
    exact takesTerm_signed ht rfl hdraft hnext (by rw [Draft.finish, if_neg hparen])
  result {F d o e} h := by
    have hnode : (F.reader d o e [.leaf .sign t] ts).remark Problem.termAfterMinus.message
        = F.reader d o e [.node .tag [.leaf .sign t]] ts :=
      Frame.remark_node (by simpa [widthOf, Tree.width_leaf] using h.cons) rfl rfl
    rw [← hnode]
    refine signedTerm_reader ht h hparen ?_
    cases ts with
    | nil =>
        have hrest := h.solid (isBlank_sign ht) (by simp)
        simp [Reader.signedBody, Reader.kind?, Frame.reader, unmarked, placeTokens, hrest]
    | cons u ts =>
        have hu := hnext u rfl
        rw [Reader.signedBody, Frame.kind?_reader_cons]
        cases hk : u.kind <;> simp_all [Draft.extend]

/-- A sign and a literal. -/
theorem readsTerm_signedLiteral {k : LiteralKind} (hu : u.kind = .literal k) :
    ReadsTerm Reader.signedTerm (t :: u :: ts)
      (.node .tag [.leaf .sign t, .leaf (.literal k) u]) ts where
  toTakesTerm := by
    have hdraft : (Draft.minus t).after [u]
        = some (.complete (Draft.tagOf (some t) [.leaf (.literal k) u])) := by
      simp [Draft.after, Draft.extend, hu]
    exact takesTerm_signed ht (by simp [widthOf, tokensWidth, Tree.width_leaf]) hdraft
      (fun _ _ => rfl) rfl
  result {F d o e} h := by
    have hu' : F.Holds (o + widthOf [Tree.leaf .sign t]) (u :: ts) := by
      simpa [widthOf, Tree.width_leaf] using h.cons
    refine signedTerm_reader ht h (by simp [hu]) ?_
    rw [Reader.signedBody, Frame.kind?_reader_cons, hu, Frame.reader_node rfl rfl]
    exact Frame.literal_reader hu' k

/-- A sign and a word alone. -/
theorem readsTerm_signedWord (hu : u.kind = .word)
    (hnext : (ts.head?.any fun v => v.kind.isComparison) = false) :
    ReadsTerm Reader.signedTerm (t :: u :: ts)
      (.node .tag [.leaf .sign t, .leaf .argument u]) ts where
  toTakesTerm := by
    have hdraft : (Draft.minus t).after [u] = some (.word (some t) u) := by
      simp [Draft.after, Draft.extend, hu]
    refine takesTerm_signed ht (by simp [widthOf, tokensWidth, Tree.width_leaf]) hdraft ?_ rfl
    intro v hv
    rw [Option.mem_def.1 hv] at hnext
    cases hk : v.kind <;> simp_all [Draft.extend, TokenKind.isComparison]
  result {F d o e} h := by
    have hu' : F.Holds (o + widthOf [Tree.leaf .sign t]) (u :: ts) := by
      simpa [widthOf, Tree.width_leaf] using h.cons
    have hfollows := Frame.comparisonFollows_reader (d := d) (e := e) hu'
      (isBlank_of_kind hu (by decide))
    refine signedTerm_reader ht h (by simp [hu]) ?_
    rw [Frame.reader_node rfl rfl]
    simp only [Reader.signedBody, Frame.kind?_reader_cons, hu, hfollows, hnext,
      Bool.false_eq_true, if_false]
    exact Frame.tokenNode_reader rfl

/-- A sign and a tag with a comparison. -/
theorem exists_signedTag {op : Token} (hu : u.kind = .word) (hop : op.kind.isComparison = true) :
    ∃ tree later, ReadsTerm Reader.signedTerm (t :: u :: op :: ts) tree later := by
  obtain ⟨value, later, htakes, htag⟩ := Frame.exists_tag u op ts hop
  refine ⟨_, later, takesTerm_tag (some t) (by simpa using ht) hu hop htakes,
    fun {F d o e} h => ?_⟩
  have hu' : F.Holds (o + widthOf [Tree.leaf .sign t]) (u :: op :: ts) := by
    simpa [widthOf, Tree.width_leaf] using h.cons
  obtain ⟨parts, hparts, hbody⟩ := htag (d := d) (e := e) (some t) hu'
  have hfollows := Frame.comparisonFollows_reader (d := d) (e := e) hu'
    (isBlank_of_kind hu (by decide))
  rw [← hparts]
  refine signedTerm_reader ht h (by simp [hu]) ?_
  simp only [Reader.signedBody, Frame.kind?_reader_cons, hu, hfollows, List.head?_cons,
    Option.any_some, hop, if_true, hparts]
  exact hbody

theorem exists_signedTerm (ts : List Token) :
    ∃ tree later, ReadsTerm Reader.signedTerm (t :: ts) tree later := by
  by_cases hparen : ts.head?.map Token.kind = some .leftParen
  · exact ⟨_, _, readsTerm_negatedClause ht hparen⟩
  cases ts with
  | nil => exact ⟨_, _, readsTerm_loneSign ht hparen (by simp)⟩
  | cons u ts =>
      cases hu : u.kind with
      | literal k => exact ⟨_, _, readsTerm_signedLiteral ht hu⟩
      | word =>
          cases hnext : ts.head?.any fun v => v.kind.isComparison with
          | false => exact ⟨_, _, readsTerm_signedWord ht hu hnext⟩
          | true =>
              obtain ⟨op, hhead, hop⟩ := (Option.any_eq_true _ _).1 hnext
              obtain ⟨ts, rfl⟩ : ∃ rest, ts = op :: rest := by
                cases ts <;> simp_all
              exact exists_signedTag ht hu hop
      | _ => exact ⟨_, _, readsTerm_loneSign ht hparen (by simp [Draft.extend, hu])⟩

end Sign

/-! ### A comparison without an argument -/

/-- Whether a token goes with a comparison that has no argument. -/
def isStray (t : Token) : Bool :=
  MarkedToken.followsStray ⟨⟨t, 0⟩, false⟩

theorem extend_stray {t : Token} (ws : List Token) : (Draft.stray ws).extend t
    = if isStray t then some (.stray (ws ++ [t])) else none := by
  cases hk : t.kind <;>
    simp [Draft.extend, isStray, MarkedToken.followsStray, MarkedToken.kind, MarkedToken.token, hk]

theorem after_strays {ws ts : List Token} (h : ∀ t ∈ ts, isStray t = true) :
    (Draft.stray ws).after ts = some (.stray (ws ++ ts)) := by
  induction ts generalizing ws with
  | nil => simp [Draft.after]
  | cons t ts ih =>
      obtain ⟨ht, hrest⟩ := List.forall_mem_cons.1 h
      simp [Draft.after, extend_stray, ht, ih hrest]

theorem remark_start {F : Frame} {d o : Nat} {e : List Remark} {ts : List Token}
    (h : F.Holds o ts) (p : Problem) : (F.reader d o e [] ts).remark p.message
      = F.reader d o (e ++ F.shown (placeAt o [p])) [] ts := by
  rw [Frame.remark_reader h]
  simp [Frame.reader, widthOf]

theorem readsTerm_strayOperator {t : Token} (ht : t.kind.isComparison = true) (ts : List Token) :
    ReadsTerm Reader.strayOperator (t :: ts) (.flat .error (t :: ts.takeWhile isStray))
      (ts.dropWhile isStray) where
  isNode := rfl
  used := by
    refine ⟨t :: ts.takeWhile isStray, by simp, by simp, ?_⟩
    simp [Tree.flat, Tree.width, widthOf, widthOf_map_token, tokensWidth]
  gathered := by
    have hstart : Draft.start t = .stray [t] := by
      cases hk : t.kind <;> simp_all [Draft.start, TokenKind.isComparison]
    have hstop : ∀ u ∈ (ts.dropWhile isStray).head?,
        (Draft.stray (t :: ts.takeWhile isStray)).extend u = none := by
      intro u hu
      have hu' := List.head?_dropWhile_not isStray ts
      rw [Option.mem_def.1 hu] at hu'
      rw [extend_stray, if_neg (by simpa using hu')]
    have hstrays : (Draft.start t).after (ts.takeWhile isStray)
        = some (.stray (t :: ts.takeWhile isStray)) := by
      rw [hstart, after_strays fun u hu => List.mem_takeWhile_imp hu]
      rfl
    have hitems := items_of_after hstrays hstop
    rwa [List.cons_append, List.takeWhile_append_dropWhile] at hitems
  result {F d o e} h := by
    have hp : t.kind.problem? = some .missingArgument := by
      cases hk : t.kind <;> simp_all [TokenKind.problem?, TokenKind.isComparison]
    have hstop : ts.dropWhile isStray = [] →
        ∀ m ∈ F.rest.head?, MarkedToken.followsStray m = false := fun _ m hm => by
      simp [MarkedToken.followsStray, (h.header m hm).1]
    have hwhile : (F.reader d o (e ++ F.shown (placeAt o [.missingArgument])) [.token t]
          ts).bumpWhile MarkedToken.followsStray
        = ((ts.takeWhile isStray).map .token,
          F.reader d o (e ++ F.shown (placeAt o [.missingArgument]))
            ([.token t] ++ (ts.takeWhile isStray).map .token) (ts.dropWhile isStray)) :=
      Frame.bumpWhile_reader (fun _ _ => rfl) hstop
    simp only [Reader.strayOperator, remark_start h, Frame.bump_reader, List.nil_append, hwhile]
    refine Prod.ext rfl ?_
    simp [Frame.reader, Tree.flat, problemsFrom_node, openingProblem?, closingProblem?, hp, widthOf,
      Tree.width, widthOf_map_token]

/-! ### All terms -/

/-- A token that makes a term by itself. -/
theorem readsTerm_literal {t : Token} {k : LiteralKind} (ht : t.kind = .literal k)
    (ts : List Token) : ReadsTerm (Reader.literal k) (t :: ts) (.leaf (.literal k) t) ts where
  toTakesTerm := takesTerm_flat (by simp [Draft.start, ht])
  result h := Frame.literal_reader h k

theorem readsTerm_unknown {t : Token} (ht : t.kind = .unknown) (ts : List Token) :
    ReadsTerm (Reader.errorBump Problem.unexpectedCharacter.message) (t :: ts) (.leaf .error t)
      ts where
  toTakesTerm := takesTerm_flat (by simp [Draft.start, ht])
  result h := Frame.errorBump_reader h (by rw [ht]; rfl)

/-- Whether a term without parentheses can begin with a token. -/
def TokenKind.startsTerm : TokenKind → Bool
  | .word | .literal _ | .minus | .comparison _ | .unknown => true
  | _ => false

/-- **A term is read as it is gathered.** The rule for terms takes the tokens that are gathered into
the item there, builds the tree of this item, and remarks on the problems of the tree. -/
theorem exists_readsTerm {t : Token} (ht : t.kind.startsTerm = true) (ts : List Token) :
    ∃ tree later, TakesTerm (t :: ts) tree later ∧
      ∀ {F : Frame} {d o : Nat} {e : List Remark} (limit : Nat), F.Holds o (t :: ts) →
        (F.reader d o e [] (t :: ts)).term (limit + 1)
          = some ([tree], F.reader d o e [tree] later) := by
  have hread : ∀ {rule : Reader → List Tree × Reader} {tree : Tree} {later : List Token},
      ReadsTerm rule (t :: ts) tree later →
      (∀ {F : Frame} {d o : Nat} {e : List Remark} (limit : Nat),
        (F.reader d o e [] (t :: ts)).term (limit + 1)
          = some (rule (F.reader d o e [] (t :: ts)))) →
      ∃ tree later, TakesTerm (t :: ts) tree later ∧
        ∀ {F : Frame} {d o : Nat} {e : List Remark} (limit : Nat), F.Holds o (t :: ts) →
          (F.reader d o e [] (t :: ts)).term (limit + 1)
            = some ([tree], F.reader d o e [tree] later) := by
    intro rule tree later h hrule
    exact ⟨tree, later, h.toTakesTerm, fun limit hF => by rw [hrule, h.result hF]⟩
  cases hk : t.kind with
  | word =>
      obtain ⟨tree, later, h⟩ := exists_wordTerm hk ts
      exact hread h fun limit => by rw [Reader.term, Frame.kind?_reader_cons, hk]
  | minus =>
      obtain ⟨tree, later, h⟩ := exists_signedTerm hk ts
      exact hread h fun limit => by rw [Reader.term, Frame.kind?_reader_cons, hk]
  | literal k =>
      exact hread (readsTerm_literal hk ts) fun limit => by
        rw [Reader.term, Frame.kind?_reader_cons, hk]
  | comparison c =>
      exact hread (readsTerm_strayOperator (by rw [hk]; rfl) ts) fun limit => by
        rw [Reader.term, Frame.kind?_reader_cons, hk]
  | unknown =>
      exact hread (readsTerm_unknown hk ts) fun limit => by
        rw [Reader.term, Frame.kind?_reader_cons, hk]
  | _ =>
      rw [hk] at ht
      cases ht

end CardQuery
