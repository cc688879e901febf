import CardQuery.Proofs.Parse.DescentRow

/-!
# Regions by recursive descent

What `and` has joined is an operand of `or`, and what `or` has joined is settled in the region. The
region is an induction on the number of its tokens: an operand in parentheses is a region of fewer
tokens, one level deeper.

Main statement: a region is read to its end, with the trees of the region (`region_reader`).
-/

set_option autoImplicit false

namespace CardQuery

open CardQuery.Tree (nodeCount widthOf)

/-! ## Conjunctions -/

/-- Whether the rule for conjunctions reads the one that a row begins with: a group that waits for
an operand is given `all`, and `later` is left. -/
structure ReadsConjunction (d : Nat) (ts : List Token) (all : List Tree) (later : List Token) :
    Prop where
  used : ∃ used, used ≠ [] ∧ ts = used ++ later ∧ widthOf all = tokensWidth used
  one : nodeCount all = 1
  unclosed : all.any Tree.isRightParen = false
  ends : EndsBefore d [.or] later
  after : ∀ (settled outer : List Tree) (chain : Chain) (around : List Group), around.length = d →
    (∀ tree, Group.addTerm ⟨settled, chain⟩ tree = ⟨settled, .operand outer [tree]⟩) →
    (Nest.mk ⟨settled, chain⟩ around).after ts
      = (Nest.mk ⟨settled, .operand outer all⟩ around).after later
  result : ∀ {F : Frame} {o : Nat} {e : List Remark} {limit : Nat}, F.Holds o ts →
    5 * ts.length ≤ limit + 1 →
    (F.reader d o e [] ts).conjunction limit = some (all, F.reader d o e all later)

theorem ReadsOperand.readsConjunction {d : Nat} {ts ts' later : List Token} {tree : Tree}
    {all : List Tree} (h : ReadsOperand d ts tree ts') (hrest : ReadsAnd d [tree] ts' all later) :
    ReadsConjunction d ts all later where
  used := by
    obtain ⟨used, hne, rfl, hwidth⟩ := h.used
    obtain ⟨more, rfl, hmore⟩ := hrest.used
    refine ⟨used ++ more, by simp [hne], by simp, ?_⟩
    rw [hmore, tokensWidth_append, ← hwidth]
    simp [widthOf]
  one := hrest.one
  unclosed := hrest.unclosed (by simp [Tree.isRightParen_of_isNode h.isNode])
  ends := hrest.ends
  after settled outer chain around hdepth hterm := by
    rw [h.after _ around hdepth, hterm, hrest.after settled outer around hdepth]
  result {F o e limit} hF hlimit := by
    have hshorter := length_lt_of_used h.used
    obtain ⟨used, -, hts, hwidth⟩ := h.used
    obtain ⟨l, rfl, hl⟩ : ∃ l, limit = l + 1 ∧ 0 ≤ l := exists_limit (by omega)
    have hbehind : F.Holds (o + widthOf ([] ++ [tree])) ts' := hF.behind hts hwidth
    rw [Reader.conjunction, h.result hF (by omega)]
    exact hrest.result hbehind (by omega)

theorem exists_readsConjunction {d n : Nat} (hterm : ReadsOperands d n) {ts : List Token}
    (hn : ts.length ≤ n) (hstart : startsOperand d ts = true) :
    ∃ all later, ReadsConjunction d ts all later := by
  obtain ⟨tree, ts', h⟩ := hterm ts hn hstart
  have hlength : ts'.length ≤ n := (length_lt_of_used h.used).le.trans hn
  obtain ⟨all, later, hall⟩ := exists_readsAnd hterm hlength (Tree.nodeCount_singleton h.isNode)
  exact ⟨all, later, h.readsConjunction hall⟩

/-! ## Disjunctions -/

/-- Whether the chain of a group goes on at most with `or`. -/
def AwaitsOr (d : Nat) (ts : List Token) : Chain → Prop
  | .operand _ _ => EndsBefore d [.or] ts
  | .afterOr _ => EndsBefore d [.and, .or] ts
  | _ => False

section Chains

variable {d : Nat} {ts : List Token} {chain : Chain}

theorem EndsBefore.dropWhile_isBlank {ops : List Connective} (h : EndsBefore d ops ts) :
    ts.takeWhile Token.isBlank = [] ∧ ts.dropWhile Token.isBlank = ts := by
  cases ts with
  | nil => exact ⟨rfl, rfl⟩
  | cons t ts =>
      have ht : ¬ t.isBlank = true := by
        rcases h t rfl with ⟨op, -, hop⟩ | ⟨hparen, -⟩ <;> simp [Token.isBlank, *]
      exact ⟨List.takeWhile_cons_of_neg ht, List.dropWhile_cons_of_neg ht⟩

theorem AwaitsOr.endsBefore (h : AwaitsOr d ts chain) : EndsBefore d [.and, .or] ts := by
  cases chain with
  | operand outer run => exact EndsBefore.mono h (by simp)
  | afterOr outer => exact h
  | _ => cases h

/-- A chain that does not go on is settled. -/
theorem AwaitsOr.after_settled (h : AwaitsOr d ts chain)
    (hkeyword : ∀ t ∈ ts.head?, t.kind ≠ .keyword .or) (settled : List Tree) {around : List Group}
    (hdepth : around.length = d) :
    (Nest.mk ⟨settled, chain⟩ around).after ts
      = (Nest.mk ⟨settled ++ chain.trees, .empty⟩ around).after ts := by
  have htrees : Group.trees ⟨settled, chain⟩ = Group.trees ⟨settled ++ chain.trees, .empty⟩ := by
    simp [Group.trees, Chain.trees]
  rcases h.endsBefore.endsRegion_or with hend | ⟨t, rest, op, rfl, hop⟩
  · exact Nest.after_congr htrees hdepth hend
  · cases op with
    | or => exact absurd hop (hkeyword t rfl)
    | and =>
        -- only behind `or` can `and` be next, and there it is an error
        cases chain with
        | afterOr outer =>
            rw [Nest.after_mark (Item.ofMark?_keyword hop),
              Nest.after_mark (Item.ofMark?_keyword hop)]
            simp [Nest.step, Group.addKeyword, Group.addAnd, Chain.trees]
        | operand outer run => rcases h t rfl with ⟨op, hmem, hop'⟩ | ⟨hparen, -⟩ <;> simp_all
        | _ => cases h

/-- Behind the keyword the chain waits for an operand. -/
theorem AwaitsOr.after_or {t : Token} {rest : List Token} (h : AwaitsOr d (t :: rest) chain)
    (ht : t.kind = .keyword .or) (settled : List Tree) (around : List Group) :
    (Nest.mk ⟨settled, chain⟩ around).after (t :: rest)
      = (Nest.mk ⟨settled, .afterOr (withKeyword chain.trees t rest)⟩ around).after
          (rest.dropWhile Token.isBlank) := by
  have hor : Group.addOr ⟨settled, chain⟩ t = ⟨settled, .afterOr (chain.trees ++ [.token t])⟩ := by
    cases chain with
    | operand outer run => rfl
    | afterOr outer => rfl
    | _ => cases h
  rw [Nest.after_mark (Item.ofMark?_keyword ht), Nest.step, Group.addKeyword, hor,
    Nest.after_blanks]
  simp [Group.addBlanks, withKeyword]

end Chains

/-- One turn of the loop for `or`. -/
structure OrTurn (d : Nat) (chain : Chain) (ts : List Token) (chain' : Chain) (tree : Tree)
    (later : List Token) : Prop
    extends TakesTurn d Reader.furtherOr chain.trees ts tree later where
  trees : chain'.trees = [tree]
  awaits : AwaitsOr d later chain'
  after : ∀ (settled : List Tree) (around : List Group), around.length = d →
    (Nest.mk ⟨settled, chain⟩ around).after ts = (Nest.mk ⟨settled, chain'⟩ around).after later

/-- Whether the loop for `or` takes a chain to its end: it is settled as `all`, and `later` is
left. -/
structure ReadsOr (d : Nat) (chain : Chain) (ts : List Token) (all : List Tree)
    (later : List Token) : Prop extends TakesRow d Reader.furtherOr chain.trees ts all later where
  ends : EndsBefore d [.and] later
  after : ∀ (settled : List Tree) (around : List Group), around.length = d →
    (Nest.mk ⟨settled, chain⟩ around).after ts
      = (Nest.mk ⟨settled ++ all, .empty⟩ around).after later

section Or

variable {d : Nat} {chain : Chain}

theorem furtherOr_keyword {left : List Tree} {t : Token} {rest : List Token}
    (ht : t.kind = .keyword .or) {F : Frame} {o : Nat} {e : List Remark} {l : Nat}
    (hF : F.Holds (o + widthOf left) (t :: rest)) {joined : List Tree} {r : Reader}
    (hjoin : (F.reader d o e left (t :: rest)).joinRight .or (fun r => r.conjunction l) left
      = some (joined, r)) :
    Reader.furtherOr (l + 1) left (F.reader d o e left (t :: rest))
      = Reader.furtherOr l joined r := by
  have hblank : ¬ t.isBlank = true := by simp [Token.isBlank, ht]
  rw [Reader.furtherOr, Frame.skipBlanks_reader hF]
  simp only [List.takeWhile_cons_of_neg hblank, List.dropWhile_cons_of_neg hblank, List.map_nil,
    List.append_nil]
  rw [Frame.kind?_reader_cons, ht, if_pos rfl, hjoin]
  rfl

section Keyword

variable {t : Token} {rest : List Token} (hleft : nodeCount chain.trees = 1)
  (h : AwaitsOr d (t :: rest) chain) (ht : t.kind = .keyword .or)
include hleft h ht

/-- A keyword and the conjunction behind it. -/
theorem orTurn_keyword (hstart : startsOperand d (rest.dropWhile Token.isBlank) = true)
    {all : List Tree} {later : List Token}
    (hall : ReadsConjunction d (rest.dropWhile Token.isBlank) all later) :
    OrTurn d chain (t :: rest) (.operand (withKeyword chain.trees t rest) all)
      (.binary .or (withKeyword chain.trees t rest ++ all)) later where
  isNode := rfl
  used := by
    obtain ⟨used, -, hused, hwidth⟩ := hall.used
    refine ⟨t :: rest.takeWhile Token.isBlank ++ used, by simp, ?_, ?_⟩
    · rw [List.append_assoc, ← hused, List.cons_append, List.takeWhile_append_dropWhile]
    · rw [Tree.width_binary, Tree.widthOf_append, widthOf_withKeyword, hwidth, tokensWidth_append,
        Nat.add_assoc]
  trees := by simp [Chain.trees, closeOr, withKeyword]
  awaits := hall.ends
  after settled around hdepth := by
    rw [h.after_or ht, hall.after settled (withKeyword chain.trees t rest) _ around hdepth]
    intro tree
    rfl
  result {F o e l} hF hlimit := by
    have hlength := (List.dropWhile_sublist Token.isBlank (l := rest)).length_le
    rw [List.length_cons] at hlimit
    exact furtherOr_keyword ht hF (joinRight_operand hF hleft hstart hall.one
      (Frame.result_behind (hall.result (holds_withKeyword hF) (by omega))))

/-- A keyword without a conjunction behind it. -/
theorem orTurn_missing (hstart : startsOperand d (rest.dropWhile Token.isBlank) = false) :
    OrTurn d chain (t :: rest) (.afterOr (withKeyword chain.trees t rest))
      (.binary .or (withKeyword chain.trees t rest)) (rest.dropWhile Token.isBlank) where
  isNode := rfl
  used := by
    refine ⟨t :: rest.takeWhile Token.isBlank, by simp, ?_, ?_⟩
    · rw [List.cons_append, List.takeWhile_append_dropWhile]
    · rw [Tree.width_binary, widthOf_withKeyword]
  trees := rfl
  awaits := endsBefore_of_not_startsOperand (head?_dropWhile_isBlank rest) hstart
  after settled around _ := h.after_or ht settled around
  result {F o e l} hF _ := furtherOr_keyword ht hF (joinRight_missing hF hleft hstart)

end Keyword

/-- Where no `or` follows, the loop ends. -/
theorem readsOr_stop {ts : List Token} (hleft : nodeCount chain.trees = 1)
    (h : AwaitsOr d ts chain) (hkeyword : ∀ t ∈ ts.head?, t.kind ≠ .keyword .or) :
    ReadsOr d chain ts chain.trees ts where
  used := ⟨[], rfl, rfl⟩
  one := hleft
  unclosed := id
  ends := h.endsBefore.of_ne hkeyword
  after settled around hdepth := h.after_settled hkeyword settled hdepth
  result {F o e limit} hF hlimit := by
    obtain ⟨l, rfl, -⟩ := exists_limit hlimit
    obtain ⟨htake, hdrop⟩ := h.endsBefore.dropWhile_isBlank
    have hkind : (F.reader d o e chain.trees ts).kind? ≠ some (.keyword .or) :=
      Frame.kind?_ne_keyword hF hkeyword
    rw [Reader.furtherOr, Frame.skipBlanks_reader hF]
    simp only [htake, hdrop, List.map_nil, List.append_nil]
    rw [if_neg hkind]

theorem OrTurn.readsOr {ts ts' later : List Token} {chain' : Chain} {tree : Tree} {all : List Tree}
    (h : OrTurn d chain ts chain' tree ts') (hrest : ReadsOr d chain' ts' all later) :
    ReadsOr d chain ts all later where
  toTakesRow := h.takesRow (by rw [← h.trees]; exact hrest.toTakesRow)
  ends := hrest.ends
  after settled around hdepth := by
    rw [h.after settled around hdepth, hrest.after settled around hdepth]

theorem exists_readsOr {n : Nat} (hterm : ReadsOperands d n) {ts : List Token}
    (hn : ts.length ≤ n) (hleft : nodeCount chain.trees = 1) (h : AwaitsOr d ts chain) :
    ∃ all later, ReadsOr d chain ts all later := by
  induction hlength : ts.length using Nat.strongRecOn generalizing chain ts with
  | ind m ih =>
      subst hlength
      have hrest : ∀ {chain' : Chain} {tree : Tree} {ts' : List Token},
          OrTurn d chain ts chain' tree ts' → ∃ all later, ReadsOr d chain ts all later := by
        intro chain' tree ts' hturn
        have hshorter := length_lt_of_used hturn.used
        have hone : nodeCount chain'.trees = 1 := by
          rw [hturn.trees, Tree.nodeCount_singleton hturn.isNode]
        obtain ⟨all, later, hall⟩ := ih _ hshorter (by omega) hone hturn.awaits rfl
        exact ⟨all, later, hturn.readsOr hall⟩
      by_cases hkeyword : ∀ t ∈ ts.head?, t.kind ≠ .keyword .or
      · exact ⟨_, _, readsOr_stop hleft h hkeyword⟩
      · push Not at hkeyword
        obtain ⟨t, ht, hk⟩ := hkeyword
        obtain ⟨rest, rfl⟩ := List.head?_eq_some_iff.1 ht
        cases hstart : startsOperand d (rest.dropWhile Token.isBlank) with
        | false => exact hrest (orTurn_missing hleft h hk hstart)
        | true =>
            have hlength := (List.dropWhile_sublist Token.isBlank (l := rest)).length_le
            rw [List.length_cons] at hn
            obtain ⟨all, later, hall⟩ := exists_readsConjunction hterm (by omega) hstart
            exact hrest (orTurn_keyword hleft h hk hstart hall)

end Or

/-- Whether a rule reads an expression, or a keyword that stands for none: `all` is settled in the
group, and `later` is left. -/
structure ReadsSettled (d : Nat) (rule : Nat → Reader → Option (List Tree × Reader))
    (ts : List Token) (all : List Tree) (later : List Token) : Prop where
  used : ∃ used, used ≠ [] ∧ ts = used ++ later ∧ widthOf all = tokensWidth used
  unclosed : all.any Tree.isRightParen = false
  after : ∀ (settled : List Tree) (around : List Group), around.length = d →
    (Nest.mk ⟨settled, .empty⟩ around).after ts
      = (Nest.mk ⟨settled ++ all, .empty⟩ around).after later
  result : ∀ {F : Frame} {o : Nat} {e : List Remark} {limit : Nat}, F.Holds o ts →
    5 * ts.length ≤ limit →
    rule limit (F.reader d o e [] ts) = some (all, F.reader d o e all later)

theorem exists_readsDisjunction {d n : Nat} (hterm : ReadsOperands d n) {ts : List Token}
    (hn : ts.length ≤ n) (hstart : startsOperand d ts = true) :
    ∃ all later, ReadsSettled d Reader.disjunction ts all later := by
  obtain ⟨run, ts', h⟩ := exists_readsConjunction hterm hn hstart
  have hshorter := length_lt_of_used h.used
  have hlength : ts'.length ≤ n := hshorter.le.trans hn
  have hawaits : AwaitsOr d ts' (.operand [] run) := h.ends
  have hone : nodeCount (Chain.operand [] run).trees = 1 := h.one
  obtain ⟨all, later, hall⟩ := exists_readsOr hterm hlength hone hawaits
  obtain ⟨used, hne, hts, hwidth⟩ := h.used
  refine ⟨all, later, ?_, hall.unclosed h.unclosed, ?_, ?_⟩
  · obtain ⟨more, rfl, hmore⟩ := hall.used
    refine ⟨used ++ more, by simp [hne], by simp [hts], ?_⟩
    rw [hmore, tokensWidth_append, ← hwidth]
    rfl
  · intro settled around hdepth
    rw [h.after settled [] .empty around hdepth fun _ => rfl, hall.after settled around hdepth]
  · intro F o e limit hF hlimit
    obtain ⟨l, rfl, hl⟩ : ∃ l, limit = l + 1 ∧ 0 ≤ l := exists_limit (by omega)
    have hbehind : F.Holds (o + widthOf ([] ++ run)) ts' := hF.behind hts hwidth
    rw [Reader.disjunction, h.result hF (by omega)]
    exact hall.result hbehind (by omega)

/-! ## Regions -/

section Region

variable {d : Nat} {ts : List Token}

/-- A region begins with the blanks that it has at its start. -/
theorem blanks_region {F : Frame} {o : Nat} (e : List Remark) (hF : F.Holds o ts) :
    F.Holds (o + widthOf (withBlanks [] ts)) (ts.dropWhile Token.isBlank) ∧
      (F.reader d o e [] ts).skipBlanks = (withBlanks [] ts,
        F.reader d o e (withBlanks [] ts) (ts.dropWhile Token.isBlank)) := by
  have hstart : F.Holds (o + widthOf []) ts := by simpa [widthOf] using hF
  exact ⟨holds_withBlanks hstart, Frame.skipBlanks_reader hstart⟩

/-- A keyword that no term comes before is an error. -/
theorem readsSettled_keyword {t : Token} {op : Connective} (ht : t.kind = .keyword op)
    (rest : List Token) :
    ReadsSettled d (fun limit r => r.expressionOrKeyword fun r => r.disjunction limit) (t :: rest)
      [.leaf .error t] rest where
  used := ⟨[t], by simp, rfl, by simp [widthOf, tokensWidth, Tree.width_leaf]⟩
  unclosed := rfl
  after settled around _ := by
    rw [Nest.after_mark (Item.ofMark?_keyword ht)]
    cases op <;> rfl
  result {F o e limit} hF _ := by
    simp only [Reader.expressionOrKeyword, Frame.kind?_reader_cons, ht]
    exact congrArg some (Frame.errorBump_reader hF (by rw [ht]; rfl))

/-- Where an operand begins, an expression is read. -/
theorem ReadsSettled.expression {all : List Tree} {later : List Token}
    (h : ReadsSettled d Reader.disjunction ts all later) (hstart : startsOperand d ts = true) :
    ReadsSettled d (fun limit r => r.expressionOrKeyword fun r => r.disjunction limit) ts all
      later where
  used := h.used
  unclosed := h.unclosed
  after := h.after
  result {F o e limit} hF hlimit := by
    cases ts with
    | nil => cases hstart
    | cons t ts =>
        have hkeyword := not_keyword_of_startsOperand hstart t rfl
        rw [← h.result hF hlimit, Reader.expressionOrKeyword, Frame.kind?_reader_cons]
        cases hk : t.kind with
        | keyword op => exact absurd hk (hkeyword op)
        | _ => rfl

/-- At its end a region has only blanks. -/
theorem readsRegion_blanks (h : EndsRegion d (ts.dropWhile Token.isBlank)) :
    ReadsRegion d ts (withBlanks [] ts) (ts.dropWhile Token.isBlank) where
  used := ⟨ts.takeWhile Token.isBlank, by simp, widthOf_map_token _⟩
  ends := h
  unclosed := unclosed_map_token_blanks ts
  after settled around _ := Nest.after_blanks _ _ _
  result {F o e limit} hF hlimit := by
    obtain ⟨l, rfl, -⟩ := exists_limit hlimit
    obtain ⟨hends, hblanks⟩ := blanks_region (d := d) e hF
    have hend : (F.reader d o e (withBlanks [] ts) (ts.dropWhile Token.isBlank)).atRegionEnd
        = true := by
      cases hsolid : ts.dropWhile Token.isBlank with
      | nil => exact Frame.atRegionEnd_reader_nil (by rwa [hsolid] at hends)
      | cons t rest =>
          obtain ⟨hparen, hd⟩ := h t (by rw [hsolid]; rfl)
          simp [Frame.atRegionEnd_reader_cons, hparen, hd]
    rw [Reader.region, hblanks]
    simp only [hend, if_true]

/-- A region goes on behind what is settled in it. -/
theorem ReadsSettled.readsRegion {t : Token} {solid later ts' : List Token} {all trees : List Tree}
    (hts : ts.dropWhile Token.isBlank = t :: solid) (ht : ¬ (0 < d ∧ t.kind = .rightParen))
    (h : ReadsSettled d (fun limit r => r.expressionOrKeyword fun r => r.disjunction limit)
      (t :: solid) all ts')
    (hrest : ReadsRegion d ts' trees later) :
    ReadsRegion d ts (withBlanks [] ts ++ all ++ trees) later where
  used := by
    obtain ⟨used, -, hused, hwidth⟩ := h.used
    obtain ⟨more, rfl, hmore⟩ := hrest.used
    refine ⟨ts.takeWhile Token.isBlank ++ used ++ more, ?_, ?_⟩
    · rw [List.append_assoc, List.append_assoc, ← hused, ← hts, List.takeWhile_append_dropWhile]
    · simp [Tree.widthOf_append, tokensWidth_append, widthOf_withBlanks, hwidth, hmore, widthOf]
  ends := hrest.ends
  unclosed := by
    rw [List.any_append, List.any_append, h.unclosed, hrest.unclosed]
    simp only [withBlanks, List.nil_append, unclosed_map_token_blanks, Bool.or_false]
  after settled around hdepth := by
    rw [Nest.after_blanks, hts]
    simp only [Group.addBlanks]
    rw [h.after _ around hdepth, hrest.after _ around hdepth]
    simp [withBlanks]
  result {F o e limit} hF hlimit := by
    obtain ⟨l, rfl, hl⟩ := exists_limit hlimit
    have hshorter := length_lt_of_used h.used
    have hlength := (List.dropWhile_sublist Token.isBlank (l := ts)).length_le
    rw [hts] at hlength
    obtain ⟨hends, hblanks⟩ := blanks_region (d := d) e hF
    rw [hts] at hends hblanks
    obtain ⟨used, -, hused, hwidth⟩ := h.used
    have hmore : F.Holds (o + widthOf (withBlanks [] ts ++ all)) ts' := hends.behind hused hwidth
    have hnotEnd : (F.reader d o e (withBlanks [] ts) (t :: solid)).atRegionEnd = false := by
      rw [Frame.atRegionEnd_reader_cons]
      simpa using ht
    have hexpr : (F.reader d o e (withBlanks [] ts) (t :: solid)).expressionOrKeyword
          (fun r => r.disjunction l)
        = some (all, F.reader d o e (withBlanks [] ts ++ all) ts') :=
      Frame.result_behind (h.result hends (by omega))
    -- the rule has taken a token, so none is stuck
    have hunstick : (F.reader d o e (withBlanks [] ts) (t :: solid)).unstick
        (F.reader d o e (withBlanks [] ts ++ all) ts')
        = ([], F.reader d o e (withBlanks [] ts ++ all) ts') := by
      have hne : ¬ (F.reader d o e (withBlanks [] ts ++ all) ts').ahead.length
          = (F.reader d o e (withBlanks [] ts) (t :: solid)).ahead.length := by
        rw [Frame.length_ahead_reader, Frame.length_ahead_reader]
        omega
      simp [Reader.unstick, hne]
    have hregion : (F.reader d o e (withBlanks [] ts ++ all) ts').region l
        = some (trees, F.reader d o e (withBlanks [] ts ++ all ++ trees) later) :=
      Frame.result_behind (hrest.result hmore (by omega))
    rw [Reader.region, hblanks]
    simp only [hnotEnd, Bool.false_eq_true, if_false]
    rw [hexpr]
    simp only [Option.bind_eq_bind, Option.bind_some, hunstick]
    rw [hregion]
    simp

end Region

/-- Every operand of at most `n` tokens is read, if regions of fewer tokens are. -/
theorem readsOperands_of_regions {n : Nat}
    (hregion : ∀ (d : Nat) (ts : List Token), ts.length < n →
      ∃ trees later, ReadsRegion d ts trees later) (d : Nat) : ReadsOperands d n := by
  intro ts hn hstart
  cases ts with
  | nil => cases hstart
  | cons t ts =>
      rw [List.length_cons] at hn
      by_cases hterm : t.kind.startsTerm = true
      · exact exists_readsOperand_term d hterm
      · simp only [startsOperand, hterm, Bool.false_or, Bool.or_eq_true, Bool.and_eq_true,
          decide_eq_true_eq] at hstart
        rcases hstart with hparen | ⟨hparen, rfl⟩
        · obtain ⟨body, later, hbody⟩ := hregion (d + 1) ts (by omega)
          cases hlater : later with
          | nil => exact ⟨_, _, readsOperand_openClause hparen hbody hlater⟩
          | cons c rest =>
              have hc : c.kind = .rightParen := (hbody.ends c (by rw [hlater]; rfl)).1
              exact ⟨_, _, readsOperand_closedClause hparen hbody hlater hc⟩
        · exact ⟨_, _, readsOperand_unmatchedParen hparen⟩

/-- **Every region is read**, at every depth and from any tokens. -/
theorem exists_readsRegion (d : Nat) (ts : List Token) :
    ∃ trees later, ReadsRegion d ts trees later := by
  induction hlength : ts.length using Nat.strongRecOn generalizing d ts with
  | ind n ih =>
      subst hlength
      have hlength := (List.dropWhile_sublist Token.isBlank (l := ts)).length_le
      have hoperands := readsOperands_of_regions (n := ts.length)
        (fun d us hus => ih _ hus d us rfl) d
      by_cases hends : EndsRegion d (ts.dropWhile Token.isBlank)
      · exact ⟨_, _, readsRegion_blanks hends⟩
      obtain ⟨t, solid, hts, ht⟩ : ∃ t solid, ts.dropWhile Token.isBlank = t :: solid ∧
          ¬ (0 < d ∧ t.kind = .rightParen) := by
        cases hts : ts.dropWhile Token.isBlank with
        | nil => exact absurd (by simp [EndsRegion, hts]) hends
        | cons t solid =>
            refine ⟨t, solid, rfl, fun hparen => hends ?_⟩
            rw [hts]
            intro u hu
            obtain rfl : t = u := by simpa using hu
            exact ⟨hparen.2, hparen.1⟩
      have hgo : ∀ {all : List Tree} {ts' : List Token},
          ReadsSettled d (fun limit r => r.expressionOrKeyword fun r => r.disjunction limit)
            (t :: solid) all ts' → ∃ trees later, ReadsRegion d ts trees later := by
        intro all ts' h
        have hshorter := length_lt_of_used h.used
        rw [hts] at hlength
        obtain ⟨trees, later, hrest⟩ := ih ts'.length (by omega) d ts' rfl
        exact ⟨_, _, h.readsRegion hts ht hrest⟩
      cases hstart : startsOperand d (t :: solid) with
      | true =>
          rw [← hts] at hstart
          obtain ⟨all, ts', h⟩ := exists_readsDisjunction hoperands hlength hstart
          rw [hts] at h hstart
          exact hgo (h.expression hstart)
      | false =>
          have hblank := head?_dropWhile_isBlank ts
          rw [hts] at hblank
          rcases endsBefore_of_not_startsOperand hblank hstart t rfl with ⟨op, -, hop⟩ | ⟨hp, hd⟩
          · exact hgo (readsSettled_keyword hop solid)
          · exact absurd ⟨hd, hp⟩ ht

/-- **A region outside parentheses is read to its end**, with the trees that its items make. -/
theorem region_reader {F : Frame} {o : Nat} {e : List Remark} {ts : List Token} {limit : Nat}
    (h : F.Holds o ts) (hlimit : 5 * ts.length + 1 ≤ limit) :
    (F.reader 0 o e [] ts).region limit
      = some (regionTrees ts, F.reader 0 o e (regionTrees ts) []) := by
  obtain ⟨trees, later, hregion⟩ := exists_readsRegion 0 ts
  obtain rfl : later = [] := by
    cases later with
    | nil => rfl
    | cons t later => exact absurd (hregion.ends t rfl).2 (by omega)
  have htrees : regionTrees ts = trees := by
    have hfinish : Nest.after ⟨⟨trees, .empty⟩, []⟩ [] = trees := by
      simp [Nest.after, items, Nest.finish, Nest.finishFrom, Group.trees, Chain.trees]
    exact (hregion.after [] [] rfl).trans hfinish
  rw [htrees]
  exact hregion.result h hlimit

end CardQuery
