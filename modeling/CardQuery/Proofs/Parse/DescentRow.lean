import CardQuery.Proofs.Parse.DescentTerm

/-!
# Operands by recursive descent

Each rule for expressions takes as many tokens as belong to its expression, and what stands behind
them is read on as if the group had been given the expression in one piece. Where an operand is
missing behind `and`, the rule closes the node at once, while the group waits for the operand until
it is known to be missing; behind such a node only a keyword, a parenthesis that closes the clause
or the end can follow, and these treat both alike.

Every rule takes a token before it calls itself again, so five calls for each token are enough.

Main statement: the loop for `and` takes an operand as far as it goes (`exists_readsAnd`).
-/

set_option autoImplicit false

namespace CardQuery

open CardQuery.Tree (nodeCount widthOf)

/-! ## Reading on -/

/-- The trees of a region when the tokens `ts` are read on after a nest. -/
def Nest.after (n : Nest) (ts : List Token) : List Tree :=
  ((items ts).foldl Nest.step n).finish

/-- A group with further blanks. -/
def Group.addBlanks (g : Group) (bs : List Tree) : Group :=
  match g.chain with
  | .empty => ⟨g.settled ++ bs, .empty⟩
  | .operand outer run => ⟨g.settled, .operand outer (run ++ bs)⟩
  | .afterAnd outer run => ⟨g.settled, .afterAnd outer (run ++ bs)⟩
  | .afterOr outer => ⟨g.settled, .afterOr (outer ++ bs)⟩

namespace Nest

variable {g g' : Group} {around : List Group} {t : Token} {ts : List Token}

theorem after_items {i : Item} {later : List Token} {n : Nest} (h : items ts = i :: items later) :
    n.after ts = (n.step i).after later := by
  rw [after, h]
  rfl

theorem after_mark {i : Item} {n : Nest} (h : Item.ofMark? t = some i) :
    n.after (t :: ts) = (n.step i).after ts :=
  after_items (items_mark h ts)

theorem after_blanks (g : Group) (around : List Group) (ts : List Token) :
    (Nest.mk g around).after ts
      = (Nest.mk (g.addBlanks ((ts.takeWhile Token.isBlank).map .token)) around).after
          (ts.dropWhile Token.isBlank) := by
  induction ts generalizing g with
  | nil =>
      rcases g with ⟨settled, chain⟩
      cases chain <;> simp [Group.addBlanks]
  | cons t ts ih =>
      by_cases ht : t.isBlank = true
      · have hstep : (Nest.mk g around).after (t :: ts)
            = (Nest.mk (g.addBlank t) around).after ts :=
          after_mark (Item.ofMark?_blank (by simpa [Token.isBlank] using ht))
        rw [hstep, ih, List.takeWhile_cons_of_pos ht, List.dropWhile_cons_of_pos ht]
        rcases g with ⟨settled, chain⟩
        cases chain <;> simp [Group.addBlanks, Group.addBlank]
      · rw [List.takeWhile_cons_of_neg ht, List.dropWhile_cons_of_neg ht]
        rcases g with ⟨settled, chain⟩
        cases chain <;> simp [Group.addBlanks]

theorem finishFrom_congr (h : g.trees = g'.trees) :
    finishFrom g around = finishFrom g' around := by
  cases around with
  | nil => exact h
  | cons outer around => rw [finishFrom, finishFrom, h]

end Nest

/-! ## Where expressions end -/

/-- Whether an operand can begin with these tokens, when `d` parentheses are open. -/
def startsOperand (d : Nat) : List Token → Bool
  | [] => false
  | t :: _ => t.kind.startsTerm || t.kind = .leftParen || (t.kind = .rightParen && d = 0)

/-- Whether these tokens end the clause that they stand in. -/
def EndsRegion (d : Nat) (ts : List Token) : Prop :=
  ∀ t ∈ ts.head?, t.kind = .rightParen ∧ 0 < d

/-- Whether an expression ends before these tokens, because of the end of its region or a
keyword. -/
def EndsBefore (d : Nat) (ops : List Connective) (ts : List Token) : Prop :=
  ∀ t ∈ ts.head?, (∃ op ∈ ops, t.kind = .keyword op) ∨ (t.kind = .rightParen ∧ 0 < d)

section Ends

variable {d : Nat} {ts : List Token} {ops : List Connective}

theorem EndsBefore.mono {ops' : List Connective} (h : EndsBefore d ops ts) (hops : ops ⊆ ops') :
    EndsBefore d ops' ts := by
  intro t ht
  rcases h t ht with ⟨op, hmem, hop⟩ | hparen
  · exact Or.inl ⟨op, hops hmem, hop⟩
  · exact Or.inr hparen

/-- Where a keyword does not stand, it does not end the expression. -/
theorem EndsBefore.of_ne {op : Connective} (h : EndsBefore d ops ts)
    (hne : ∀ t ∈ ts.head?, t.kind ≠ .keyword op) : EndsBefore d (ops.filter (· ≠ op)) ts := by
  intro t ht
  rcases h t ht with ⟨op', hmem, hop⟩ | hparen
  · refine Or.inl ⟨op', List.mem_filter.2 ⟨hmem, decide_eq_true ?_⟩, hop⟩
    rintro rfl
    exact hne t ht hop
  · exact Or.inr hparen

theorem EndsBefore.endsRegion_or (h : EndsBefore d ops ts) :
    EndsRegion d ts ∨ ∃ t rest op, ts = t :: rest ∧ t.kind = .keyword op := by
  cases ts with
  | nil => exact Or.inl (by simp [EndsRegion])
  | cons t rest =>
      rcases h t rfl with ⟨op, -, hop⟩ | hparen
      · exact Or.inr ⟨t, rest, op, rfl, hop⟩
      · exact Or.inl fun u hu => by
          obtain rfl : t = u := by simpa using hu
          exact hparen

/-- At its end only the trees of a group matter. -/
theorem Nest.after_congr {g g' : Group} {around : List Group} (h : g.trees = g'.trees)
    (hdepth : around.length = d) (hts : EndsRegion d ts) :
    (Nest.mk g around).after ts = (Nest.mk g' around).after ts := by
  cases ts with
  | nil => exact finishFrom_congr h
  | cons t ts =>
      obtain ⟨ht, hd⟩ := hts t rfl
      cases around with
      | nil =>
          obtain rfl : 0 = d := hdepth
          cases hd
      | cons outer around =>
          have hmark : Item.ofMark? t = some (.closing t) := by simp [Item.ofMark?, ht]
          rw [after_mark hmark, after_mark hmark, step, step, h]

end Ends

theorem endsBefore_of_not_startsOperand {d : Nat} {ts : List Token}
    (hblank : ∀ t ∈ ts.head?, t.isBlank = false) (h : startsOperand d ts = false) :
    EndsBefore d [.and, .or] ts := by
  intro t ht
  cases ts with
  | nil => cases ht
  | cons u ts =>
      obtain rfl : u = t := by simpa using ht
      have hu := hblank u rfl
      cases hk : u.kind with
      | keyword op => cases op <;> simp
      | rightParen => simp_all [startsOperand, TokenKind.startsTerm, Nat.pos_iff_ne_zero]
      | blank => simp [Token.isBlank, hk] at hu
      | _ => simp [startsOperand, TokenKind.startsTerm, hk] at h

theorem not_keyword_of_startsOperand {d : Nat} {ts : List Token} (h : startsOperand d ts = true) :
    ∀ t ∈ ts.head?, ∀ op, t.kind ≠ .keyword op := by
  intro t ht op hk
  cases ts with
  | nil => cases ht
  | cons u ts =>
      obtain rfl : u = t := by simpa using ht
      simp [startsOperand, hk, TokenKind.startsTerm] at h

namespace Frame

variable {F : Frame} {d o : Nat} {e : List Remark} {xs : List Tree} {t : Token} {ts : List Token}

theorem atRegionEnd_reader_cons : (F.reader d o e xs (t :: ts)).atRegionEnd
    = (decide (0 < d) && t.kind = .rightParen) := by
  simp [Reader.atRegionEnd, Reader.atEnd, reader, unmarked, placeTokens, Reader.atHeader,
    Reader.kind?, MarkedToken.kind, MarkedToken.token]

theorem atRegionEnd_reader_nil (h : F.Holds (o + widthOf xs) []) :
    (F.reader d o e xs []).atRegionEnd = true := by
  cases hrest : F.rest with
  | nil => simp [Reader.atRegionEnd, Reader.atEnd, reader, unmarked, placeTokens, hrest]
  | cons m rest =>
      have hm := (h.header m (by simp [hrest])).1
      simp [Reader.atRegionEnd, Reader.atHeader, reader, unmarked, placeTokens, hrest, hm]

theorem canStartTerm_reader (h : F.Holds (o + widthOf xs) ts) :
    (F.reader d o e xs ts).canStartTerm = startsOperand d ts := by
  cases ts with
  | nil => simp [Reader.canStartTerm, atRegionEnd_reader_nil h, startsOperand]
  | cons t ts =>
      rw [Reader.canStartTerm, atRegionEnd_reader_cons, kind?_reader_cons]
      have hdepth : (F.reader d o e xs (t :: ts)).depth = d := rfl
      rw [hdepth]
      cases hk : t.kind <;> cases d <;> simp [startsOperand, hk, TokenKind.startsTerm]

/-- The next token is one of the region, or the word of a header. -/
theorem exists_head_of_kind? (h : F.Holds (o + widthOf xs) ts) {k : TokenKind}
    (hk : (F.reader d o e xs ts).kind? = some k) (hword : k ≠ .word) :
    ∃ t ∈ ts.head?, t.kind = k := by
  cases ts with
  | cons t ts => exact ⟨t, rfl, by simpa using hk⟩
  | nil =>
      cases hrest : F.rest with
      | nil => simp [Reader.kind?, reader, unmarked, placeTokens, hrest] at hk
      | cons m rest =>
          have hm := (h.header m (by simp [hrest])).2
          simp only [Reader.kind?, reader, unmarked, placeTokens, hrest] at hk
          exact absurd (by simpa [hm] using hk) hword.symm

theorem length_ahead_reader : (F.reader d o e xs ts).ahead.length = ts.length + F.rest.length := by
  rw [reader, List.length_append, ← List.length_map MarkedToken.token, map_token_unmarked]

theorem kind?_ne_keyword {op : Connective} (h : F.Holds (o + widthOf xs) ts)
    (hne : ∀ t ∈ ts.head?, t.kind ≠ .keyword op) :
    (F.reader d o e xs ts).kind? ≠ some (.keyword op) := by
  intro hkind
  obtain ⟨t, ht, hk⟩ := exists_head_of_kind? h hkind (by simp)
  exact hne t ht hk

/-- A rule that can be used at the start of a region can be used in it. -/
theorem result_behind {rule : Reader → Option (List Tree × Reader)} {ys : List Tree}
    {later : List Token}
    (h : ∀ {e : List Remark}, rule (F.reader d (o + widthOf xs) e [] ts)
      = some (ys, F.reader d (o + widthOf xs) e ys later)) :
    rule (F.reader d o e xs ts) = some (ys, F.reader d o e (xs ++ ys) later) := by
  have hstart : F.reader d o e (xs ++ []) ts
      = F.reader d (o + widthOf xs) (e ++ F.shown (problemsOf o xs)) [] ts := reader_append []
  rw [List.append_nil] at hstart
  rw [hstart, h, reader_append]

end Frame

/-! ## Operands -/

/-- Whether the rule for terms reads the operand that a row begins with, when `d` parentheses are
open: `tree` is added to any group, and `later` is left. -/
structure ReadsOperand (d : Nat) (ts : List Token) (tree : Tree) (later : List Token) : Prop where
  isNode : tree.isNode = true
  used : ∃ used, used ≠ [] ∧ ts = used ++ later ∧ tree.width = tokensWidth used
  after : ∀ (g : Group) (around : List Group), around.length = d →
    (Nest.mk g around).after ts = (Nest.mk (g.addTerm tree) around).after later
  result : ∀ {F : Frame} {o : Nat} {e : List Remark} {limit : Nat}, F.Holds o ts →
    5 * ts.length ≤ limit + 2 →
    (F.reader d o e [] ts).term limit = some ([tree], F.reader d o e [tree] later)

/-- Whether the rule for regions reads a region, or the part of it up to the parenthesis that closes
it. -/
structure ReadsRegion (d : Nat) (ts : List Token) (trees : List Tree) (later : List Token) :
    Prop where
  used : ∃ used, ts = used ++ later ∧ widthOf trees = tokensWidth used
  ends : EndsRegion d later
  unclosed : trees.any Tree.isRightParen = false
  after : ∀ (settled : List Tree) (around : List Group), around.length = d →
    (Nest.mk ⟨settled, .empty⟩ around).after ts
      = (Nest.mk ⟨settled ++ trees, .empty⟩ around).after later
  result : ∀ {F : Frame} {o : Nat} {e : List Remark} {limit : Nat}, F.Holds o ts →
    5 * ts.length + 1 ≤ limit →
    (F.reader d o e [] ts).region limit = some (trees, F.reader d o e trees later)

/-- What is used is not left. -/
theorem length_lt_of_used {ts later : List Token} {P : List Token → Prop}
    (h : ∃ used, used ≠ [] ∧ ts = used ++ later ∧ P used) : later.length < ts.length := by
  obtain ⟨used, hne, rfl, -⟩ := h
  simpa using List.length_pos_iff.2 hne

theorem exists_limit {limit n : Nat} (h : n + 1 ≤ limit) : ∃ l, limit = l + 1 ∧ n ≤ l :=
  ⟨limit - 1, by omega, by omega⟩

section Operand

variable {t : Token} {ts : List Token}

theorem exists_readsOperand_term (d : Nat) (ht : t.kind.startsTerm = true) :
    ∃ tree later, ReadsOperand d (t :: ts) tree later := by
  obtain ⟨tree, later, htakes, hresult⟩ := exists_readsTerm ht ts
  refine ⟨tree, later, htakes.isNode, htakes.used, fun g around _ => ?_,
    fun {F o e limit} h hlimit => ?_⟩
  · exact Nest.after_items htakes.gathered
  · obtain ⟨l, rfl, -⟩ : ∃ l, limit = l + 1 ∧ 0 ≤ l := exists_limit (by
      simp only [List.length_cons] at hlimit
      omega)
    exact hresult l h

/-- A parenthesis that closes nothing is read as a term. -/
theorem readsOperand_unmatchedParen (ht : t.kind = .rightParen) :
    ReadsOperand 0 (t :: ts) (.leaf .error t) ts where
  isNode := rfl
  used := ⟨[t], by simp, rfl, by simp [tokensWidth, Tree.width_leaf]⟩
  after g around hdepth := by
    obtain rfl := List.length_eq_zero_iff.1 hdepth
    have hmark : Item.ofMark? t = some (.closing t) := by simp [Item.ofMark?, ht]
    exact Nest.after_mark hmark
  result {F o e limit} h hlimit := by
    obtain ⟨l, rfl, -⟩ : ∃ l, limit = l + 1 ∧ 0 ≤ l := exists_limit (by
      simp only [List.length_cons] at hlimit
      omega)
    rw [Reader.term, Frame.kind?_reader_cons, ht]
    exact congrArg some (Frame.errorBump_reader h (by rw [ht]; rfl))

end Operand

section Clause

variable {d : Nat} {t : Token} {ts later : List Token} {body : List Tree}
  (ht : t.kind = .leftParen) (h : ReadsRegion (d + 1) ts body later)
include ht h

/-- The region of a clause is read on in a group of its own. -/
theorem after_clause (g : Group) {around : List Group} (hdepth : around.length = d) :
    (Nest.mk g around).after (t :: ts)
      = (Nest.mk ⟨.token t :: body, .empty⟩ (g :: around)).after later := by
  have hopening : Item.ofMark? t = some (.opening t) := by simp [Item.ofMark?, ht]
  rw [Nest.after_mark hopening]
  exact h.after [.token t] (g :: around) (by rw [List.length_cons, hdepth])

/-- The rule for clauses is left with the parenthesis that closes it. -/
theorem term_clause {F : Frame} {o : Nat} {e : List Remark} {limit : Nat} (hF : F.Holds o (t :: ts))
    (hlimit : 5 * (t :: ts).length ≤ limit + 2) {closing : List Tree} {r : Reader}
    (hclosing : (F.reader d o e (.token t :: body) later).closing = (closing, r)) :
    (F.reader d o e [] (t :: ts)).term limit
      = some ([.node .clause (.token t :: (body ++ closing))], r) := by
  rw [List.length_cons] at hlimit
  obtain ⟨l, rfl⟩ : ∃ l, limit = l + 2 := ⟨limit - 2, by omega⟩
  have hopening : F.Holds (o + widthOf [Tree.token t]) ts := by
    simpa [widthOf, Tree.width] using hF.cons
  have hbody : (F.reader (d + 1) o e [.token t] ts).region l
      = some (body, F.reader (d + 1) o e ([.token t] ++ body) later) :=
    Frame.result_behind (h.result hopening (by omega))
  have henter : (F.reader d o e [.token t] ts).enter = F.reader (d + 1) o e [.token t] ts := rfl
  have hleave : (F.reader (d + 1) o e (.token t :: body) later).leave
      = F.reader d o e (.token t :: body) later := rfl
  rw [List.cons_append, List.nil_append] at hbody
  rw [Reader.term, Frame.kind?_reader_cons, ht]
  simp only [Reader.clause, Frame.bump_reader, List.nil_append, henter, hbody, hleave, hclosing,
    Option.bind_eq_bind, Option.bind_some]
  rfl

omit ht in
theorem holds_clause {F : Frame} {o : Nat} (hF : F.Holds o (t :: ts)) :
    F.Holds (o + widthOf (.token t :: body)) later := by
  obtain ⟨used, rfl, hwidth⟩ := h.used
  have hdrop : F.Holds (o + tokensWidth (t :: used)) later := hF.drop
  simpa [widthOf, Tree.width, tokensWidth, hwidth] using hdrop

/-- A clause that is never closed ends where its region ends. -/
theorem readsOperand_openClause (hlater : later = []) :
    ReadsOperand d (t :: ts) (.node .clause (.token t :: body)) [] where
  isNode := rfl
  used := by
    obtain ⟨used, rfl, hwidth⟩ := h.used
    exact ⟨t :: used, by simp, by simp [hlater], by simp [Tree.width, widthOf, tokensWidth, hwidth]⟩
  after g around hdepth := by
    rw [after_clause ht h g hdepth, hlater]
    simp [Nest.after, items, Nest.finish, Nest.finishFrom, Group.trees, Chain.trees]
  result {F o e limit} hF hlimit := by
    subst hlater
    have hend := holds_clause h hF
    have hkind : (F.reader d o e (.token t :: body) []).kind? ≠ some .rightParen := by
      intro hkind
      obtain ⟨c, hc, -⟩ := Frame.exists_head_of_kind? hend hkind (by decide)
      cases hc
    have hmissing : closingProblem? .clause (.token t :: body) = some .missingParen := by
      have hany : (Tree.token t :: body).any Tree.isRightParen = false := by
        simp [Tree.isRightParen_token, ht, h.unclosed]
      have hclosed : (Tree.node .clause (.token t :: body)).isClosed = false := hany
      simp [closingProblem?, hclosed]
    have hnode := Frame.remark_node (d := d) (e := e) hend rfl hmissing
    have hclause := term_clause ht h hF hlimit (e := e)
      (by rw [Reader.closing, if_neg hkind, hnode])
    simpa using hclause

/-- A clause ends behind the parenthesis that closes it. -/
theorem readsOperand_closedClause {c : Token} {rest : List Token} (hlater : later = c :: rest)
    (hc : c.kind = .rightParen) :
    ReadsOperand d (t :: ts) (.node .clause (.token t :: (body ++ [.token c]))) rest where
  isNode := rfl
  used := by
    obtain ⟨used, rfl, hwidth⟩ := h.used
    refine ⟨t :: used ++ [c], by simp, by simp [hlater], ?_⟩
    simp [Tree.width, widthOf, Tree.widthOf_append, tokensWidth, tokensWidth_append, hwidth]
  after g around hdepth := by
    have hmark : Item.ofMark? c = some (.closing c) := by simp [Item.ofMark?, hc]
    rw [after_clause ht h g hdepth, hlater, Nest.after_mark hmark]
    simp [Nest.step, Group.trees, Chain.trees]
  result {F o e limit} hF hlimit := by
    subst hlater
    have hclosed : closingProblem? .clause (.token t :: (body ++ [.token c])) = none := by
      have hany : (Tree.token t :: (body ++ [.token c])).any Tree.isRightParen = true := by
        simp [Tree.isRightParen_token, hc]
      have hclosed : (Tree.node .clause (.token t :: (body ++ [.token c]))).isClosed = true := hany
      simp [closingProblem?, hclosed]
    refine term_clause ht h hF hlimit ?_
    rw [Reader.closing, Frame.kind?_reader_cons, hc, if_pos rfl, Frame.bump_reader,
      Frame.reader_node rfl hclosed]
    rfl

end Clause

/-! ## Rows of operands -/

/-- A loop over operands, which has built the first of them. -/
abbrev OperandLoop := Nat → List Tree → Reader → Option (List Tree × Reader)

/-- Whether a loop takes a row further: `left` becomes `all`, and `later` is left. -/
structure TakesRow (d : Nat) (loop : OperandLoop) (left : List Tree) (ts : List Token)
    (all : List Tree) (later : List Token) : Prop where
  used : ∃ used, ts = used ++ later ∧ widthOf all = widthOf left + tokensWidth used
  one : nodeCount all = 1
  unclosed : left.any Tree.isRightParen = false → all.any Tree.isRightParen = false
  result : ∀ {F : Frame} {o : Nat} {e : List Remark} {limit : Nat},
    F.Holds (o + widthOf left) ts → 5 * ts.length + 1 ≤ limit →
    loop limit left (F.reader d o e left ts) = some (all, F.reader d o e all later)

/-- Whether a loop goes round once: a node around `left` and an operand is built. -/
structure TakesTurn (d : Nat) (loop : OperandLoop) (left : List Tree) (ts : List Token)
    (tree : Tree) (later : List Token) : Prop where
  used : ∃ used, used ≠ [] ∧ ts = used ++ later ∧ tree.width = widthOf left + tokensWidth used
  isNode : tree.isNode = true
  result : ∀ {F : Frame} {o : Nat} {e : List Remark} {l : Nat},
    F.Holds (o + widthOf left) ts → 5 * ts.length ≤ l →
    loop (l + 1) left (F.reader d o e left ts) = loop l [tree] (F.reader d o e [tree] later)

theorem Tree.isRightParen_of_isNode {t : Tree} (h : t.isNode = true) : t.isRightParen = false := by
  cases t with
  | token t => cases h
  | node k cs => rfl

theorem Tree.nodeCount_singleton {t : Tree} (h : t.isNode = true) : nodeCount [t] = 1 := by
  cases t with
  | token t => cases h
  | node k cs => rfl

theorem TakesTurn.takesRow {d : Nat} {loop : OperandLoop} {left all : List Tree}
    {ts ts' later : List Token} {tree : Tree} (h : TakesTurn d loop left ts tree ts')
    (hrest : TakesRow d loop [tree] ts' all later) : TakesRow d loop left ts all later where
  used := by
    obtain ⟨used, -, rfl, hwidth⟩ := h.used
    obtain ⟨more, rfl, hmore⟩ := hrest.used
    refine ⟨used ++ more, by simp, ?_⟩
    rw [hmore, tokensWidth_append, widthOf, hwidth]
    simp [widthOf, Nat.add_assoc]
  one := hrest.one
  unclosed _ := hrest.unclosed (by simp [Tree.isRightParen_of_isNode h.isNode])
  result {F o e limit} hF hlimit := by
    have hshorter := length_lt_of_used h.used
    obtain ⟨used, -, rfl, hwidth⟩ := h.used
    obtain ⟨l, rfl, hl⟩ := exists_limit hlimit
    rw [h.result hF hl]
    refine hrest.result ?_ (by omega)
    have hdrop := hF.drop
    simpa [widthOf, hwidth, Nat.add_assoc] using hdrop

@[simp] theorem Tree.nodeCount_map_token (ts : List Token) : nodeCount (ts.map .token) = 0 := by
  induction ts with
  | nil => rfl
  | cons t ts ih => exact ih

theorem reader_binary {F : Frame} {d o : Nat} {e : List Remark} {run : List Tree}
    {ts : List Token} (op : Connective) (h : nodeCount run = 2) :
    F.reader d o e [.binary op run] ts = F.reader d o e run ts :=
  Frame.reader_node rfl (by simp [closingProblem?, Tree.length_filterMap_kind?, h])

theorem remark_binary {F : Frame} {d o : Nat} {e : List Remark} {run : List Tree}
    {ts : List Token} {op : Connective} (hF : F.Holds (o + widthOf run) ts)
    (h : nodeCount run = 1) :
    (F.reader d o e run ts).remark (Problem.termAfter op).message
      = F.reader d o e [.binary op run] ts :=
  Frame.remark_node hF rfl (by simp [closingProblem?, Tree.length_filterMap_kind?, h])

/-- What is built of a row when a keyword and the blanks behind it are taken. -/
def withKeyword (left : List Tree) (keyword : Token) (ts : List Token) : List Tree :=
  left ++ (keyword :: ts.takeWhile Token.isBlank).map .token

section Join

variable {F : Frame} {d o : Nat} {e : List Remark} {left : List Tree} {keyword : Token}
  {ts : List Token} {op : Connective} {operand : Reader → Option (List Tree × Reader)}

theorem holds_withKeyword (h : F.Holds (o + widthOf left) (keyword :: ts)) :
    F.Holds (o + widthOf (withKeyword left keyword ts)) (ts.dropWhile Token.isBlank) :=
  h.behind (by simp) (widthOf_map_token _)

theorem nodeCount_withKeyword (hleft : nodeCount left = 1) :
    nodeCount (withKeyword left keyword ts) = 1 := by
  rw [withKeyword, Tree.nodeCount_append, Tree.nodeCount_map_token, hleft]

theorem joinRight_reader (h : F.Holds (o + widthOf left) (keyword :: ts)) {right : List Tree}
    {r : Reader}
    (hright : (F.reader d o e (withKeyword left keyword ts)
      (ts.dropWhile Token.isBlank)).rightOperand op operand = some (right, r)) :
    (F.reader d o e left (keyword :: ts)).joinRight op operand left
      = some ([.binary op (withKeyword left keyword ts ++ right)], r) := by
  have hts : F.Holds (o + widthOf (left ++ [.token keyword])) ts := by
    have hcons := h.cons
    simpa [Tree.widthOf_append, widthOf, Tree.width, Nat.add_assoc] using hcons
  have hrun : left ++ [.token keyword] ++ (ts.takeWhile Token.isBlank).map .token
      = withKeyword left keyword ts := by simp [withKeyword]
  rw [Reader.joinRight, Frame.bump_reader]
  simp only [Frame.skipBlanks_reader hts, hrun, hright, Option.bind_eq_bind, Option.bind_some]
  rfl

/-- Behind a keyword and the blanks after it an operand is joined. -/
theorem joinRight_operand (h : F.Holds (o + widthOf left) (keyword :: ts))
    (hleft : nodeCount left = 1) (hstart : startsOperand d (ts.dropWhile Token.isBlank) = true)
    {right : List Tree} {later : List Token} (hone : nodeCount right = 1)
    (hright : operand (F.reader d o e (withKeyword left keyword ts) (ts.dropWhile Token.isBlank))
      = some (right, F.reader d o e (withKeyword left keyword ts ++ right) later)) :
    (F.reader d o e left (keyword :: ts)).joinRight op operand left
      = some ([.binary op (withKeyword left keyword ts ++ right)],
        F.reader d o e [.binary op (withKeyword left keyword ts ++ right)] later) := by
  have htwo : nodeCount (withKeyword left keyword ts ++ right) = 2 := by
    rw [Tree.nodeCount_append, nodeCount_withKeyword hleft, hone]
  rw [reader_binary op htwo]
  refine joinRight_reader h ?_
  rw [Reader.rightOperand, Frame.canStartTerm_reader (holds_withKeyword h), if_pos hstart, hright]

/-- Where no operand begins, the node is left without it. -/
theorem joinRight_missing (h : F.Holds (o + widthOf left) (keyword :: ts))
    (hleft : nodeCount left = 1) (hstart : startsOperand d (ts.dropWhile Token.isBlank) = false) :
    (F.reader d o e left (keyword :: ts)).joinRight op operand left
      = some ([.binary op (withKeyword left keyword ts)],
        F.reader d o e [.binary op (withKeyword left keyword ts)]
          (ts.dropWhile Token.isBlank)) := by
  rw [← remark_binary (holds_withKeyword h) (nodeCount_withKeyword hleft)]
  have hright : (F.reader d o e (withKeyword left keyword ts)
        (ts.dropWhile Token.isBlank)).rightOperand op operand
      = some ([], (F.reader d o e (withKeyword left keyword ts)
        (ts.dropWhile Token.isBlank)).remark (Problem.termAfter op).message) := by
    rw [Reader.rightOperand, Frame.canStartTerm_reader (holds_withKeyword h), hstart,
      if_neg Bool.false_ne_true]
  have hjoin := joinRight_reader h hright
  rwa [List.append_nil] at hjoin

end Join

/-! ## Conjunctions -/

/-- What is built of a row when the blanks behind it are taken. -/
def withBlanks (left : List Tree) (ts : List Token) : List Tree :=
  left ++ (ts.takeWhile Token.isBlank).map .token

theorem holds_withBlanks {F : Frame} {o : Nat} {left : List Tree} {ts : List Token}
    (h : F.Holds (o + widthOf left) ts) :
    F.Holds (o + widthOf (withBlanks left ts)) (ts.dropWhile Token.isBlank) :=
  h.behind (by simp) (widthOf_map_token _)

theorem nodeCount_withBlanks (left : List Tree) (ts : List Token) :
    nodeCount (withBlanks left ts) = nodeCount left := by
  rw [withBlanks, Tree.nodeCount_append, Tree.nodeCount_map_token, Nat.add_zero]

theorem unclosed_map_token_blanks (ts : List Token) :
    ((ts.takeWhile Token.isBlank).map Tree.token).any Tree.isRightParen = false := by
  rw [List.any_eq_false]
  intro c hc
  obtain ⟨t, ht, rfl⟩ := List.mem_map.1 hc
  have hblank := List.mem_takeWhile_imp ht
  have hkind : t.kind = .blank := by simpa [Token.isBlank] using hblank
  simp [Tree.isRightParen_token, hkind]

/-- Whether every operand that a row can begin with is read. -/
def ReadsOperands (d n : Nat) : Prop :=
  ∀ ts : List Token, ts.length ≤ n → startsOperand d ts = true →
    ∃ tree later, ReadsOperand d ts tree later

/-- One turn of the loop for `and`. -/
structure AndTurn (d : Nat) (left : List Tree) (ts : List Token) (tree : Tree)
    (later : List Token) : Prop extends TakesTurn d Reader.furtherAnd left ts tree later where
  after : ∀ (settled outer : List Tree) (around : List Group), around.length = d →
    (Nest.mk ⟨settled, .operand outer left⟩ around).after ts
      = (Nest.mk ⟨settled, .operand outer [tree]⟩ around).after later

/-- Whether the loop for `and` takes the operand `left` further: it becomes `all`, an operand of the
same group, and `later` is left. -/
structure ReadsAnd (d : Nat) (left : List Tree) (ts : List Token) (all : List Tree)
    (later : List Token) : Prop extends TakesRow d Reader.furtherAnd left ts all later where
  ends : EndsBefore d [.or] later
  after : ∀ (settled outer : List Tree) (around : List Group), around.length = d →
    (Nest.mk ⟨settled, .operand outer left⟩ around).after ts
      = (Nest.mk ⟨settled, .operand outer all⟩ around).after later

/-- A node without its right operand can be closed before the tokens that follow it: they treat it
as the chain that waits for the operand. -/
theorem after_afterAnd {d : Nat} {settled outer run : List Tree} {around : List Group}
    {ts : List Token} (hdepth : around.length = d) (hts : EndsBefore d [.and, .or] ts) :
    (Nest.mk ⟨settled, .afterAnd outer run⟩ around).after ts
      = (Nest.mk ⟨settled, .operand outer [.binary .and run]⟩ around).after ts := by
  rcases hts.endsRegion_or with hend | ⟨t, rest, op, rfl, ht⟩
  · exact Nest.after_congr rfl hdepth hend
  · have hmark := Item.ofMark?_keyword ht
    rw [Nest.after_mark hmark, Nest.after_mark hmark]
    cases op <;> rfl

section And

variable {d : Nat} {left : List Tree} {ts : List Token} (hleft : nodeCount left = 1)

/-- The blanks behind an operand belong to it. -/
theorem after_operand (settled outer : List Tree) (around : List Group) :
    (Nest.mk ⟨settled, .operand outer left⟩ around).after ts
      = (Nest.mk ⟨settled, .operand outer (withBlanks left ts)⟩ around).after
          (ts.dropWhile Token.isBlank) :=
  Nest.after_blanks _ _ _

theorem widthOf_withBlanks (left : List Tree) (ts : List Token) :
    widthOf (withBlanks left ts) = widthOf left + tokensWidth (ts.takeWhile Token.isBlank) := by
  rw [withBlanks, Tree.widthOf_append, widthOf_map_token]

theorem Tree.width_binary (op : Connective) (cs : List Tree) :
    (Tree.binary op cs).width = widthOf cs := by
  rw [binary, width]

include hleft

/-- An operand without a keyword before it. -/
theorem andTurn_operand {tree : Tree} {later : List Token}
    (h : ReadsOperand d (ts.dropWhile Token.isBlank) tree later)
    (hstart : startsOperand d (ts.dropWhile Token.isBlank) = true) :
    AndTurn d left ts (.binary .and (withBlanks left ts ++ [tree])) later where
  isNode := rfl
  used := by
    obtain ⟨used, hne, hused, hwidth⟩ := h.used
    refine ⟨ts.takeWhile Token.isBlank ++ used, by simp [hne], ?_, ?_⟩
    · rw [List.append_assoc, ← hused, List.takeWhile_append_dropWhile]
    · rw [Tree.width_binary, Tree.widthOf_append, widthOf_withBlanks, tokensWidth_append, widthOf,
        hwidth]
      simp [widthOf, Nat.add_assoc]
  after settled outer around hdepth := by
    rw [after_operand, h.after _ around hdepth]
    rfl
  result {F o e l} hF hlimit := by
    have hends := holds_withBlanks hF
    have hlength := (List.dropWhile_sublist Token.isBlank (l := ts)).length_le
    have hkind : (F.reader d o e (withBlanks left ts) (ts.dropWhile Token.isBlank)).kind?
        ≠ some (.keyword .and) :=
      Frame.kind?_ne_keyword hends fun t ht => not_keyword_of_startsOperand hstart t ht .and
    have hterm : (F.reader d o e (withBlanks left ts) (ts.dropWhile Token.isBlank)).term l
        = some ([tree], F.reader d o e (withBlanks left ts ++ [tree]) later) :=
      Frame.result_behind (h.result hends (by omega))
    have htwo : nodeCount (withBlanks left ts ++ [tree]) = 2 := by
      rw [Tree.nodeCount_append, nodeCount_withBlanks, hleft, Tree.nodeCount_singleton h.isNode]
    have hcan := Frame.canStartTerm_reader (d := d) (e := e) hends
    rw [Reader.furtherAnd, Frame.skipBlanks_reader hF, reader_binary .and htwo]
    simp only [← withBlanks.eq_1]
    rw [if_neg hkind, hcan, if_pos hstart, hterm]
    rfl

end And

theorem widthOf_withKeyword (left : List Tree) (t : Token) (rest : List Token) :
    widthOf (withKeyword left t rest)
      = widthOf left + tokensWidth (t :: rest.takeWhile Token.isBlank) := by
  rw [withKeyword, Tree.widthOf_append, widthOf_map_token]

/-- The tokens of a row up to what stands behind a keyword. -/
theorem exists_used_keyword (left : List Tree) {ts : List Token} {t : Token} {rest : List Token}
    (hts : ts.dropWhile Token.isBlank = t :: rest) :
    ∃ used, used ≠ [] ∧ ts = used ++ rest.dropWhile Token.isBlank ∧
      widthOf (withKeyword (withBlanks left ts) t rest) = widthOf left + tokensWidth used := by
  refine ⟨ts.takeWhile Token.isBlank ++ t :: rest.takeWhile Token.isBlank, by simp, ?_, ?_⟩
  · rw [List.append_assoc, List.cons_append, List.takeWhile_append_dropWhile, ← hts,
      List.takeWhile_append_dropWhile]
  · rw [widthOf_withKeyword, widthOf_withBlanks, tokensWidth_append, Nat.add_assoc]

section AndKeyword

variable {d : Nat} {left : List Tree} {ts : List Token} (hleft : nodeCount left = 1) {t : Token}
  {rest : List Token} (hts : ts.dropWhile Token.isBlank = t :: rest)
  (ht : t.kind = .keyword .and)
include hts ht

theorem after_and (settled outer : List Tree) (around : List Group) :
    (Nest.mk ⟨settled, .operand outer left⟩ around).after ts
      = (Nest.mk ⟨settled, .afterAnd outer (withKeyword (withBlanks left ts) t rest)⟩ around).after
          (rest.dropWhile Token.isBlank) := by
  rw [after_operand, hts, Nest.after_mark (Item.ofMark?_keyword ht)]
  have hblanks := Nest.after_blanks ⟨settled, .afterAnd outer (withBlanks left ts ++ [.token t])⟩
    around rest
  simp only [Group.addBlanks, List.append_assoc, List.singleton_append] at hblanks
  exact hblanks

theorem furtherAnd_keyword {F : Frame} {o : Nat} {e : List Remark} {l : Nat}
    (hF : F.Holds (o + widthOf left) ts) {joined : List Tree} {r : Reader}
    (hjoin : (F.reader d o e (withBlanks left ts) (t :: rest)).joinRight .and
      (fun r => r.term l) (withBlanks left ts) = some (joined, r)) :
    Reader.furtherAnd (l + 1) left (F.reader d o e left ts) = Reader.furtherAnd l joined r := by
  rw [Reader.furtherAnd, Frame.skipBlanks_reader hF]
  simp only [← withBlanks.eq_1, hts]
  rw [Frame.kind?_reader_cons, ht, if_pos rfl, hjoin]
  rfl

include hleft

/-- A keyword and the operand behind it. -/
theorem andTurn_keyword (hstart : startsOperand d (rest.dropWhile Token.isBlank) = true)
    {tree : Tree} {later : List Token}
    (h : ReadsOperand d (rest.dropWhile Token.isBlank) tree later) :
    AndTurn d left ts (.binary .and (withKeyword (withBlanks left ts) t rest ++ [tree])) later where
  isNode := rfl
  used := by
    obtain ⟨before, hne, hbefore, hleftWidth⟩ := exists_used_keyword left hts
    obtain ⟨used, -, hused, hwidth⟩ := h.used
    refine ⟨before ++ used, by simp [hne], ?_, ?_⟩
    · rw [List.append_assoc, ← hused]
      exact hbefore
    · rw [Tree.width_binary, Tree.widthOf_append, hleftWidth, tokensWidth_append, widthOf, hwidth]
      simp [widthOf, Nat.add_assoc]
  after settled outer around hdepth := by
    rw [after_and hts ht, h.after _ around hdepth]
    rfl
  result {F o e l} hF hlimit := by
    have hends := holds_withBlanks hF
    rw [hts] at hends
    have hlength := (List.dropWhile_sublist Token.isBlank (l := ts)).length_le
    have hlength' := (List.dropWhile_sublist Token.isBlank (l := rest)).length_le
    rw [hts, List.length_cons] at hlength
    refine furtherAnd_keyword hts ht hF (joinRight_operand hends ?_ hstart
      (Tree.nodeCount_singleton h.isNode) ?_)
    · rw [nodeCount_withBlanks, hleft]
    · exact Frame.result_behind (h.result (holds_withKeyword hends) (by omega))

/-- A keyword without an operand behind it. -/
theorem andTurn_missing (hstart : startsOperand d (rest.dropWhile Token.isBlank) = false) :
    AndTurn d left ts (.binary .and (withKeyword (withBlanks left ts) t rest))
      (rest.dropWhile Token.isBlank) where
  isNode := rfl
  used := by
    obtain ⟨before, hne, hbefore, hleftWidth⟩ := exists_used_keyword left hts
    exact ⟨before, hne, hbefore, by rw [Tree.width_binary, hleftWidth]⟩
  after settled outer around hdepth := by
    rw [after_and hts ht]
    exact after_afterAnd hdepth
      (endsBefore_of_not_startsOperand (head?_dropWhile_isBlank rest) hstart)
  result {F o e l} hF hlimit := by
    have hends := holds_withBlanks hF
    rw [hts] at hends
    refine furtherAnd_keyword hts ht hF (joinRight_missing hends ?_ hstart)
    rw [nodeCount_withBlanks, hleft]

end AndKeyword

/-- Where no operand and no `and` follows, the loop ends. -/
theorem readsAnd_stop {d : Nat} {left : List Tree} {ts : List Token} (hleft : nodeCount left = 1)
    (hstart : startsOperand d (ts.dropWhile Token.isBlank) = false)
    (hkeyword : ∀ t ∈ (ts.dropWhile Token.isBlank).head?, t.kind ≠ .keyword .and) :
    ReadsAnd d left ts (withBlanks left ts) (ts.dropWhile Token.isBlank) where
  used := ⟨ts.takeWhile Token.isBlank, by simp, widthOf_withBlanks left ts⟩
  one := by rw [nodeCount_withBlanks, hleft]
  unclosed h := by rw [withBlanks, List.any_append, h, unclosed_map_token_blanks]; rfl
  ends := (endsBefore_of_not_startsOperand (head?_dropWhile_isBlank ts) hstart).of_ne hkeyword
  after settled outer around _ := after_operand settled outer around
  result {F o e limit} hF hlimit := by
    obtain ⟨l, rfl, -⟩ := exists_limit hlimit
    have hends := holds_withBlanks hF
    have hkind : (F.reader d o e (withBlanks left ts) (ts.dropWhile Token.isBlank)).kind?
        ≠ some (.keyword .and) := Frame.kind?_ne_keyword hends hkeyword
    have hcan := Frame.canStartTerm_reader (d := d) (e := e) hends
    rw [Reader.furtherAnd, Frame.skipBlanks_reader hF]
    simp only [← withBlanks.eq_1]
    rw [if_neg hkind, hcan, hstart, if_neg Bool.false_ne_true]

theorem AndTurn.readsAnd {d : Nat} {left all : List Tree} {ts ts' later : List Token} {tree : Tree}
    (h : AndTurn d left ts tree ts') (hrest : ReadsAnd d [tree] ts' all later) :
    ReadsAnd d left ts all later where
  toTakesRow := h.takesRow hrest.toTakesRow
  ends := hrest.ends
  after settled outer around hdepth := by
    rw [h.after settled outer around hdepth, hrest.after settled outer around hdepth]

/-- **The loop for `and` takes an operand as far as it goes.** -/
theorem exists_readsAnd {d n : Nat} (hterm : ReadsOperands d n) {left : List Tree}
    {ts : List Token} (hn : ts.length ≤ n) (hleft : nodeCount left = 1) :
    ∃ all later, ReadsAnd d left ts all later := by
  induction hlength : ts.length using Nat.strongRecOn generalizing left ts with
  | ind m ih =>
      subst hlength
      have hrest : ∀ {tree : Tree} {ts' : List Token}, AndTurn d left ts tree ts' →
          ∃ all later, ReadsAnd d left ts all later := by
        intro tree ts' hturn
        have hshorter := length_lt_of_used hturn.used
        obtain ⟨all, later, hall⟩ := ih _ hshorter (by omega)
          (Tree.nodeCount_singleton hturn.isNode) rfl
        exact ⟨all, later, hturn.readsAnd hall⟩
      have hlength := (List.dropWhile_sublist Token.isBlank (l := ts)).length_le
      cases hstart : startsOperand d (ts.dropWhile Token.isBlank) with
      | true =>
          obtain ⟨tree, ts', h⟩ := hterm _ (by omega) hstart
          exact hrest (andTurn_operand hleft h hstart)
      | false =>
          by_cases hkeyword : ∀ t ∈ (ts.dropWhile Token.isBlank).head?, t.kind ≠ .keyword .and
          · exact ⟨_, _, readsAnd_stop hleft hstart hkeyword⟩
          · push Not at hkeyword
            obtain ⟨t, ht, hk⟩ := hkeyword
            obtain ⟨rest, hts⟩ := List.head?_eq_some_iff.1 ht
            cases hstart' : startsOperand d (rest.dropWhile Token.isBlank) with
            | false => exact hrest (andTurn_missing hleft hts hk hstart')
            | true =>
                have hlength' := (List.dropWhile_sublist Token.isBlank (l := rest)).length_le
                rw [hts, List.length_cons] at hlength
                obtain ⟨tree, ts', h⟩ := hterm _ (by omega) hstart'
                exact hrest (andTurn_keyword hleft hts hk hstart' h)

end CardQuery
