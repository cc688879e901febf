import CardQuery.Editor.Indent
import CardQuery.Proofs.Parse.Arrangement
import CardQuery.Proofs.Parse.Lossless
import CardQuery.Proofs.Parse.TermTokens
import CardQuery.Proofs.Query.Extraction
import CardQuery.Proofs.Tree.Leaf

/-!
# Indentation counts brackets

The level of a line is found in the tree: it is the number of clauses that open before the line and
do not close before it. It can be found without one, by counting parentheses from the start of the
text. The two agree because the groups that are open while a region is read are the parentheses
that are open there: each token read leaves both counts as they are, or moves both by one.

Main statement: `Tree.indentLevel_eq`.
-/

set_option autoImplicit false

namespace CardQuery

open CardQuery.Tree (AllOf widthOf)

/-! ## Counting brackets -/

/-- The level after a token that is met at a level. A parenthesis that closes nothing leaves it at
zero. -/
def Token.levelAfter (level : Nat) (t : Token) : Nat :=
  match t.kind with
  | .leftParen => level + 1
  | .rightParen => level - 1
  | _ => level

/-- The level at the end of a row of tokens. -/
def bracketLevel (ts : List Token) : Nat :=
  ts.foldl Token.levelAfter 0

/-- The tokens of a row, the first of which stands at `start`, that start before an offset. -/
def startingBefore (offset start : Nat) (ts : List Token) : List Token :=
  ((placeTokens start ts).filter fun p => p.start < offset).map PlacedToken.token

/-- Whether a token is a parenthesis. -/
def Token.isParen (t : Token) : Bool :=
  t.kind = .leftParen || t.kind = .rightParen

theorem Token.levelAfter_of_not_isParen {t : Token} (h : t.isParen = false) (level : Nat) :
    t.levelAfter level = level := by
  unfold levelAfter
  split <;> simp_all [isParen]

theorem isParen_eq_false_of_unmarked {t : Token} (h : Item.ofMark? t = none) :
    t.isParen = false := by
  cases hk : t.kind <;> simp_all [Item.ofMark?, Token.isParen]

theorem bracketLevel_append_of_not_isParen {ts us : List Token}
    (h : ∀ t ∈ us, t.isParen = false) : bracketLevel (ts ++ us) = bracketLevel ts := by
  rw [bracketLevel, List.foldl_append, bracketLevel]
  generalize ts.foldl Token.levelAfter 0 = level
  induction us with
  | nil => rfl
  | cons u us ih =>
      obtain ⟨hu, hrest⟩ := List.forall_mem_cons.1 h
      rw [List.foldl_cons, Token.levelAfter_of_not_isParen hu]
      exact ih hrest

theorem bracketLevel_concat (ts : List Token) (t : Token) :
    bracketLevel (ts ++ [t]) = t.levelAfter (bracketLevel ts) := by
  simp [bracketLevel]

section StartingBefore

variable {offset start : Nat}

theorem startingBefore_append (ts us : List Token) :
    startingBefore offset start (ts ++ us)
      = startingBefore offset start ts ++ startingBefore offset (start + tokensWidth ts) us := by
  simp [startingBefore, placeTokens_append]

theorem mem_of_mem_startingBefore {ts : List Token} {t : Token}
    (h : t ∈ startingBefore offset start ts) : t ∈ ts := by
  induction ts generalizing start with
  | nil => cases h
  | cons u us ih =>
      rw [← List.singleton_append, startingBefore_append] at h
      rcases List.mem_append.1 h with h | h
      · obtain ⟨p, hp, rfl⟩ := List.mem_map.1 h
        have hp' : p = ⟨u, start⟩ := by simpa [placeTokens] using (List.mem_filter.1 hp).1
        simp [hp']
      · exact List.mem_cons_of_mem _ (ih h)

/-- A row that ends before an offset starts before it with all its tokens. -/
theorem startingBefore_eq_self {ts : List Token} (h : start + tokensWidth ts < offset) :
    startingBefore offset start ts = ts := by
  induction ts generalizing start with
  | nil => rfl
  | cons t ts ih =>
      rw [tokensWidth] at h
      have hstart : start < offset := by omega
      have hrest := @ih (start + t.width) (by omega)
      rw [startingBefore] at hrest ⊢
      simp [placeTokens, hstart, hrest]

theorem startingBefore_singleton (t : Token) :
    startingBefore offset start [t] = if start < offset then [t] else [] := by
  by_cases h : start < offset <;> simp [startingBefore, placeTokens, h]

end StartingBefore

/-! ## Clauses that are open at an offset -/

namespace Tree

/-- The byte of the first closing parenthesis among children, the first of which starts at
`start`. -/
def closingStart? (start : Nat) : List Tree → Option Nat
  | [] => none
  | c :: cs => if c.isRightParen then some start else closingStart? (start + c.width) cs

mutual

/-- The number of clauses, in a tree that starts at a byte, which open before an offset and do not
close before it. -/
def openAt (offset start : Nat) : Tree → Nat
  | .token _ => 0
  | .node k cs =>
    (if k = .clause ∧ start < offset ∧ (closingStart? start cs).all (offset ≤ ·) then 1 else 0)
      + openOf offset start cs

/-- The number of such clauses in several trees side by side. -/
def openOf (offset start : Nat) : List Tree → Nat
  | [] => 0
  | c :: cs => openAt offset start c + openOf offset (start + c.width) cs

end

variable {offset start : Nat}

theorem closingStart?_eq_none {cs : List Tree} (h : cs.any isRightParen = false) :
    closingStart? start cs = none := by
  induction cs generalizing start with
  | nil => rfl
  | cons c cs ih =>
      rw [List.any_cons, Bool.or_eq_false_iff] at h
      simp [closingStart?, h.1, ih h.2]

theorem closingStart?_concat {cs : List Tree} (h : cs.any isRightParen = false) {c : Tree}
    (hc : c.isRightParen = true) : closingStart? start (cs ++ [c]) = some (start + widthOf cs) := by
  induction cs generalizing start with
  | nil => simp [closingStart?, hc, widthOf]
  | cons x xs ih =>
      rw [List.any_cons, Bool.or_eq_false_iff] at h
      simp [closingStart?, h.1, ih h.2, widthOf, Nat.add_assoc]

@[simp] theorem openAt_token (t : Token) : openAt offset start (.token t) = 0 := by
  simp [openAt]

@[simp] theorem openOf_nil : openOf offset start [] = 0 := by
  simp [openOf]

@[simp] theorem openOf_cons (c : Tree) (cs : List Tree) :
    openOf offset start (c :: cs)
      = openAt offset start c + openOf offset (start + c.width) cs := by
  simp [openOf]

@[simp] theorem openOf_append (xs ys : List Tree) :
    openOf offset start (xs ++ ys)
      = openOf offset start xs + openOf offset (start + widthOf xs) ys := by
  induction xs generalizing start with
  | nil => simp [widthOf]
  | cons x xs ih => simp [ih, widthOf, Nat.add_assoc]

/-- Other nodes than clauses count for what is in them. -/
theorem openAt_node {k : NodeKind} (hk : k ≠ .clause) (cs : List Tree) :
    openAt offset start (.node k cs) = openOf offset start cs := by
  simp [openAt, hk]

/-- A clause that is not closed counts when it opens before the offset. -/
theorem openAt_unclosed {cs : List Tree} (h : cs.any isRightParen = false) :
    openAt offset start (.node .clause cs)
      = (if start < offset then 1 else 0) + openOf offset start cs := by
  simp [openAt, closingStart?_eq_none h]

/-- A clause that is closed counts when the offset is between its parentheses. -/
theorem openAt_closed {cs : List Tree} (h : cs.any isRightParen = false) {t : Token}
    (ht : t.kind = .rightParen) :
    openAt offset start (.node .clause (cs ++ [.token t]))
      = (if start < offset ∧ offset ≤ start + widthOf cs then 1 else 0)
        + openOf offset start cs := by
  have hparen : (token t).isRightParen = true := by simp [isRightParen_token, ht]
  simp [openAt, closingStart?_concat h hparen]

mutual

/-- Where no parenthesis stands nothing is open. -/
theorem openAt_eq_zero (offset start : Nat) {t : Tree} (hparts : t.All NodeKind.Parts)
    (h : ∀ x ∈ t.tokens, x.isParen = false) : openAt offset start t = 0 := by
  cases t with
  | token t => simp
  | node k cs =>
      rw [all_node] at hparts
      rw [tokens_node] at h
      have hk : k ≠ .clause := by
        rintro rfl
        obtain ⟨⟨x, rest, rfl, hx⟩, -⟩ := hparts.1
        have hparen := h x (by simp)
        simp [Token.isParen, hx] at hparen
      rw [openAt_node hk]
      exact openOf_eq_zero offset start hparts.2 h

theorem openOf_eq_zero (offset start : Nat) {cs : List Tree} (hparts : AllOf NodeKind.Parts cs)
    (h : ∀ x ∈ tokensOf cs, x.isParen = false) : openOf offset start cs = 0 := by
  cases cs with
  | nil => simp
  | cons c cs =>
      rw [allOf_cons] at hparts
      rw [tokensOf_cons, List.forall_mem_append] at h
      rw [openOf_cons, openAt_eq_zero offset start hparts.1 h.1,
        openOf_eq_zero offset _ hparts.2 h.2]

end

end Tree

open CardQuery.Tree (openAt openOf openOf_append openAt_node openAt_unclosed openAt_closed)

/-! ## Open clauses of groups -/

namespace Group

variable {offset start : Nat}

theorem widthOf_trees_eq (g : Group) : widthOf g.trees = tokensWidth g.tokens := by
  rw [tokens, Tree.tokensWidth_tokensOf]

theorem openOf_closeOr (outer run : List Tree) :
    openOf offset start (closeOr outer run) = openOf offset start (outer ++ run) := by
  cases outer <;> simp [closeOr, Tree.binary, openAt_node]

theorem openOf_addTerm (g : Group) (tree : Tree) :
    openOf offset start (g.addTerm tree).trees
      = openOf offset start g.trees + openAt offset (start + tokensWidth g.tokens) tree := by
  rw [← widthOf_trees_eq]
  rcases g with ⟨settled, chain⟩
  have hwidth : ∀ outer run : List Tree,
      widthOf (closeOr outer run) = widthOf outer + widthOf run := by
    intro outer run
    cases outer <;>
      simp [closeOr, Tree.binary, widthOf, Tree.width, Tree.widthOf_append, Nat.add_assoc]
  cases chain <;>
    simp [addTerm, trees, Chain.trees, Tree.binary, openOf_closeOr, openAt_node, hwidth, widthOf,
      Tree.width, Tree.widthOf_append, Nat.add_assoc]

theorem openOf_addBlank (g : Group) (t : Token) :
    openOf offset start (g.addBlank t).trees = openOf offset start g.trees := by
  rcases g with ⟨settled, chain⟩
  cases chain <;>
    simp [addBlank, trees, Chain.trees, Tree.binary, openOf_closeOr, openAt_node]

theorem openOf_addKeyword (g : Group) (op : Connective) (t : Token) :
    openOf offset start (g.addKeyword op t).trees = openOf offset start g.trees := by
  rcases g with ⟨settled, chain⟩
  cases op <;> cases chain <;>
    simp [addKeyword, addAnd, addOr, trees, Chain.trees, Tree.binary, Tree.leaf, openOf_closeOr,
      openAt_node]

end Group

/-! ## Open clauses of nests -/

namespace Nest

variable {offset : Nat}

/-- What is open in a region depends on its innermost group through what is open there. -/
theorem openOf_finishFrom {g g' : Group} (hg : g.Formed) (hg' : g'.Formed) {around : List Group}
    (haround : ∀ x ∈ around, x.Formed) :
    openOf offset 0 (finishFrom g around)
        + openOf offset (tokensWidth (around.reverse.flatMap Group.tokens)) g'.trees
      = openOf offset 0 (finishFrom g' around)
        + openOf offset (tokensWidth (around.reverse.flatMap Group.tokens)) g.trees := by
  induction around generalizing g g' with
  | nil => exact Nat.add_comm _ _
  | cons outer around ih =>
      obtain ⟨houter, hrest⟩ := List.forall_mem_cons.1 haround
      -- each of the two groups ends as a clause that is not closed, behind the same group
      have hmore := ih (houter.addTerm (formed_clause hg.trees.1))
        (houter.addTerm (formed_clause hg'.trees.1)) hrest
      rw [Group.openOf_addTerm, Group.openOf_addTerm, openAt_unclosed hg.trees.2,
        openAt_unclosed hg'.trees.2] at hmore
      rw [finishFrom, finishFrom, List.reverse_cons, List.flatMap_append, tokensWidth_append,
        List.flatMap_singleton]
      omega

/-- A parenthesis that opens a group before the offset is one more that is open there. -/
theorem openOf_opening {n : Nest} (hn : n.Formed) {t : Token} (ht : t.kind = .leftParen) :
    openOf offset 0 (n.step (.opening t)).finish
      = openOf offset 0 n.finish + if tokensWidth n.tokens < offset then 1 else 0 := by
  rcases n with ⟨g, around⟩
  have hg : g.Formed := hn.1
  have haround : ∀ x ∈ around, x.Formed := hn.2
  have hunclosed : [Tree.token t].any Tree.isRightParen = false := by
    simp [Tree.isRightParen_token, ht]
  have hclause : (Tree.node .clause [.token t]).All NodeKind.Formed := formed_clause (by simp)
  have hmore := @openOf_finishFrom offset _ _ (hg.addTerm hclause) hg _ haround
  rw [Group.openOf_addTerm, openAt_unclosed hunclosed, Tree.openOf_cons, Tree.openAt_token,
    Tree.openOf_nil, ← tokensWidth_append, ← tokensOf_finishFrom] at hmore
  show openOf offset 0 (finishFrom (g.addTerm (.node .clause [.token t])) around)
    = openOf offset 0 (finishFrom g around)
      + if tokensWidth (Tree.tokensOf (finishFrom g around)) < offset then 1 else 0
  omega

/-- A parenthesis that closes a group before the offset is one less that is open there. -/
theorem openOf_closing {g outer : Group} {around : List Group}
    (hn : (Nest.mk g (outer :: around)).Formed) {t : Token} (ht : t.kind = .rightParen) :
    openOf offset 0 (Nest.mk g (outer :: around)).finish
      = openOf offset 0 ((Nest.mk g (outer :: around)).step (.closing t)).finish
        + if tokensWidth (Nest.mk g (outer :: around)).tokens < offset then 1 else 0 := by
  have hg : g.Formed := hn.1
  obtain ⟨houter, hrest⟩ := List.forall_mem_cons.1 hn.2
  -- the group ends as a clause in the group around it, closed or not
  have hclosed : (Tree.node .clause (g.trees ++ [.token t])).All NodeKind.Formed :=
    formed_clause (by simpa using hg.trees.1)
  have hmore := @openOf_finishFrom offset _ _ (houter.addTerm (formed_clause hg.trees.1))
    (houter.addTerm hclosed) _ hrest
  rw [Group.openOf_addTerm, Group.openOf_addTerm, openAt_unclosed hg.trees.2,
    openAt_closed hg.trees.2 ht, Group.widthOf_trees_eq] at hmore
  have hwidth : tokensWidth (Nest.mk g (outer :: around)).tokens
      = tokensWidth (around.reverse.flatMap Group.tokens) + tokensWidth outer.tokens
        + tokensWidth g.tokens := by
    simp [tokens, finish, tokensOf_finishFrom, tokensWidth_append, Nat.add_assoc]
  show openOf offset 0 (finishFrom (outer.addTerm (.node .clause g.trees)) around)
    = openOf offset 0
        (finishFrom (outer.addTerm (.node .clause (g.trees ++ [.token t]))) around) + _
  rw [hwidth]
  split at hmore <;> split at hmore <;> split <;> omega

/-- Whether the groups that are open are as many as the parentheses, and the clauses that are open
at an offset as many as the parentheses before it. -/
structure Levels (offset : Nat) (n : Nest) : Prop where
  around : n.around.length = bracketLevel n.tokens
  opened : openOf offset 0 n.finish = bracketLevel (startingBefore offset 0 n.tokens)

theorem levels_start : Nest.start.Levels offset :=
  ⟨rfl, rfl⟩

/-- What the counting of parentheses comes to with one more token. -/
theorem bracketLevel_startingBefore_concat (ts : List Token) (t : Token) :
    bracketLevel (startingBefore offset 0 (ts ++ [t]))
      = if tokensWidth ts < offset then t.levelAfter (bracketLevel ts)
        else bracketLevel (startingBefore offset 0 ts) := by
  rw [startingBefore_append, startingBefore_singleton, Nat.zero_add]
  split
  · next h => rw [startingBefore_eq_self (by omega), bracketLevel_concat]
  · rw [List.append_nil]

/-- Before an offset every group that is open is a clause that is open at the offset. -/
theorem Levels.opened_eq {n : Nest} (h : n.Levels offset)
    (hbefore : tokensWidth n.tokens < offset) : openOf offset 0 n.finish = n.around.length := by
  rw [h.opened, h.around, startingBefore_eq_self (by omega)]

/-- Tokens that are no parentheses, and open nothing in their group, leave the levels as they
are. -/
theorem Levels.quiet {g g' : Group} (hg : g.Formed) (hg' : g'.Formed) {around : List Group}
    (haround : ∀ x ∈ around, x.Formed) (h : (Nest.mk g around).Levels offset)
    (hopened : ∀ start, openOf offset start g'.trees = openOf offset start g.trees)
    {ts : List Token} (htokens : (Nest.mk g' around).tokens = (Nest.mk g around).tokens ++ ts)
    (hts : ∀ t ∈ ts, t.isParen = false) : (Nest.mk g' around).Levels offset := by
  have hfinish := @openOf_finishFrom offset _ _ hg' hg _ haround
  rw [hopened] at hfinish
  constructor
  · rw [htokens, bracketLevel_append_of_not_isParen hts, ← h.around]
  · rw [finish, Nat.add_right_cancel hfinish, htokens, startingBefore_append,
      bracketLevel_append_of_not_isParen, ← h.opened]
    · rfl
    · exact fun t ht => hts t (mem_of_mem_startingBefore ht)

/-- A parenthesis moves both levels, or the first alone when it stands behind the offset. -/
theorem Levels.concat {n n' : Nest} (h : n.Levels offset) {t : Token}
    (htokens : n'.tokens = n.tokens ++ [t])
    (haround : n'.around.length = t.levelAfter n.around.length)
    (hopened : openOf offset 0 n'.finish
      = if tokensWidth n.tokens < offset then t.levelAfter (openOf offset 0 n.finish)
        else openOf offset 0 n.finish) :
    n'.Levels offset := by
  constructor
  · rw [haround, h.around, htokens, bracketLevel_concat]
  · rw [hopened, htokens, bracketLevel_startingBefore_concat]
    split
    · next hbefore => rw [h.opened_eq hbefore, h.around]
    · exact h.opened

/-- **Each item moves the groups that are open as it moves the count of parentheses.** -/
theorem levels_step {n : Nest} {i : Item} (hn : n.Formed) (h : n.Levels offset) (hi : i.Proper)
    (hformed : i.Formed) (harranged : i.Arranged) (hunmarked : i.Unmarked) :
    (n.step i).Levels offset := by
  have htokens := n.tokens_step i
  rcases n with ⟨g, around⟩
  have hg : g.Formed := hn.1
  have haround : ∀ x ∈ around, x.Formed := hn.2
  cases i with
  | blank t =>
      have ht : t.kind = .blank := hi
      exact .quiet hg (hg.addBlank hi) haround h (fun _ => Group.openOf_addBlank g t) htokens
        (by simp [Item.tokens, Token.isParen, ht])
  | keyword op t =>
      have ht : t.kind = .keyword op := hi
      exact .quiet hg (hg.addKeyword hi) haround h (fun _ => Group.openOf_addKeyword g op t) htokens
        (by simp [Item.tokens, Token.isParen, ht])
  | term tree =>
      obtain ⟨k, cs, rfl, -⟩ := hi
      have hterm : (Tree.node k cs).All NodeKind.Formed := by
        simpa [Item.Formed, Item.trees] using hformed
      have hparts : (Tree.node k cs).All NodeKind.Parts := by
        simpa [Item.Arranged, Item.trees] using harranged
      have hquiet : ∀ t ∈ (Tree.node k cs).tokens, t.isParen = false := fun t ht =>
        isParen_eq_false_of_unmarked (hunmarked t ht)
      refine .quiet hg (hg.addTerm hterm) haround h (fun start => ?_) htokens hquiet
      rw [Group.openOf_addTerm, Tree.openAt_eq_zero _ _ hparts hquiet, Nat.add_zero]
  | opening t =>
      have ht : t.kind = .leftParen := hi
      refine h.concat htokens (by simp [step, Token.levelAfter, ht]) ?_
      rw [openOf_opening hn ht]
      split <;> simp [Token.levelAfter, ht]
  | closing t =>
      have ht : t.kind = .rightParen := hi
      cases around with
      | nil =>
          -- nothing is open, and nothing is less open than that
          have hsame : openOf offset 0 ((Nest.mk g []).step (.closing t)).finish
              = openOf offset 0 (Nest.mk g []).finish := by
            show openOf offset 0 (g.addTerm (.leaf .error t)).trees = openOf offset 0 g.trees
            simp [Group.openOf_addTerm, Tree.leaf, openAt_node]
          refine h.concat htokens (by simp [step, Token.levelAfter, ht]) ?_
          rw [hsame]
          split
          · next hbefore =>
              rw [h.opened_eq hbefore]
              simp [Token.levelAfter, ht]
          · rfl
      | cons outer around =>
          have hless := @openOf_closing offset _ _ _ hn _ ht
          refine h.concat htokens (by simp [step, Token.levelAfter, ht]) ?_
          rw [hless]
          split <;> simp [Token.levelAfter, ht]

theorem levels_foldl_step {n : Nest} {is : List Item} (hn : n.Formed) (h : n.Levels offset)
    (hproper : ∀ i ∈ is, i.Proper) (hitems : ∀ i ∈ is, i.Formed ∧ i.Arranged ∧ i.Unmarked) :
    (is.foldl step n).Levels offset := by
  induction is generalizing n with
  | nil => exact h
  | cons i is ih =>
      obtain ⟨hi, hrest⟩ := List.forall_mem_cons.1 hproper
      obtain ⟨⟨hformed, harranged, hunmarked⟩, hitems'⟩ := List.forall_mem_cons.1 hitems
      exact ih (formed_step hn hi hformed) (levels_step hn h hi hformed harranged hunmarked) hrest
        hitems'

end Nest

/-- **The clauses of a region that are open at an offset are the parentheses that are open
there.** -/
theorem openOf_regionTrees {ts : List Token} (hts : ∀ t ∈ ts, t.IsLexeme) (offset : Nat) :
    openOf offset 0 (regionTrees ts)
      = bracketLevel (startingBefore offset 0 (Tree.tokensOf (regionTrees ts))) :=
  (Nest.levels_foldl_step Nest.formed_start Nest.levels_start (proper_items ts) fun i hi =>
    ⟨formed_items hts i hi, arranged_items ts i hi, unmarked_items ts i hi⟩).opened

/-! ## The level of a line -/

namespace Tree

theorem closingParen?_childrenFrom (above : List Step) (k : NodeKind) (nodeStart : Nat)
    (before : List Tree) (start : Nat) (cs : List Tree) :
    ((Focus.childrenFrom above k nodeStart before start cs).find?
        fun c => c.tree.tokenKind? = some .rightParen).map Focus.start
      = closingStart? start cs := by
  induction cs generalizing before start with
  | nil => rfl
  | cons c cs ih =>
      rw [Focus.childrenFrom, closingStart?, List.find?_cons]
      cases h : c.isRightParen <;> simp_all [isRightParen]

theorem isOpenAt_node (offset start : Nat) (above : List Step) (k : NodeKind) (cs : List Tree) :
    (Focus.mk (.node k cs) start above).isOpenAt offset = true
      ↔ k = .clause ∧ start < offset ∧ (closingStart? start cs).all (offset ≤ ·) = true := by
  have hclosing : (Focus.mk (.node k cs) start above).closingParen? = closingStart? start cs :=
    closingParen?_childrenFrom above k start [] start cs
  simp [Focus.isOpenAt, hclosing, isKind, kind?, and_assoc]

mutual

/-- The clauses that are open at an offset, counted place by place. -/
theorem length_filter_focusesFrom (offset : Nat) (above : List Step) (start : Nat) (t : Tree) :
    ((focusesFrom above start t).filter (Focus.isOpenAt offset)).length
      = openAt offset start t := by
  cases t with
  | token t => simp [focusesFrom, Focus.isOpenAt, isKind, kind?]
  | node k cs =>
      have hcs := length_filter_focusesOf offset above k start [] start cs
      rw [focusesFrom, openAt, List.filter_cons]
      split
      · next h => rw [if_pos ((isOpenAt_node offset start above k cs).1 h), List.length_cons, hcs,
          Nat.add_comm]
      · next h => rw [if_neg (mt (isOpenAt_node offset start above k cs).2 h), hcs, Nat.zero_add]

theorem length_filter_focusesOf (offset : Nat) (above : List Step) (k : NodeKind)
    (nodeStart : Nat) (before : List Tree) (start : Nat) (cs : List Tree) :
    ((focusesOf above k nodeStart before start cs).filter (Focus.isOpenAt offset)).length
      = openOf offset start cs := by
  cases cs with
  | nil => simp [focusesOf]
  | cons c cs =>
      rw [focusesOf, List.filter_append, List.length_append, openOf_cons,
        length_filter_focusesFrom, length_filter_focusesOf]

end

theorem length_filter_nodes (offset : Nat) (t : Tree) :
    (t.nodes.filter (Focus.isOpenAt offset)).length = openAt offset 0 t := by
  rw [nodes, List.filter_filter, ← length_filter_focusesFrom offset [] 0 t, focuses]
  congr 1
  refine List.filter_congr fun f _ => ?_
  cases htree : f.tree <;> simp [Focus.isOpenAt, htree, isKind, isNode, kind?]

end Tree

/-- Whether the first token that is not blank and ends behind an offset is a closing
parenthesis. -/
def closesNext (offset : Nat) (ts : List Token) : Bool :=
  ((placeTokens 0 ts).find? fun p => offset < p.span.stop && !p.token.isBlank).any fun p =>
    p.token.kind = .rightParen

/-- What a line is indented by, read off a row of tokens: the parentheses that are open there, less
one when the line starts with a parenthesis that closes one. -/
def lineLevel (offset : Nat) (ts : List Token) : Nat :=
  let level := bracketLevel (startingBefore offset 0 ts)
  if closesNext offset ts then level - 1 else level

/-- A level depends on which tokens are parentheses, and on where they stand. -/
theorem bracketLevel_startingBefore_parse (offset : Nat) (t : Text) :
    bracketLevel (startingBefore offset 0 (parse t).tokens)
      = bracketLevel (startingBefore offset 0 (tokenize t)) := by
  let moves : Token → Nat → Nat := fun x level => x.levelAfter level
  have hmoves : ∀ ts, bracketLevel (startingBefore offset 0 ts)
      = (((placeTokens 0 ts).map fun p => (moves p.token, p.span)).filter
          fun x => x.2.start < offset).foldl (fun level x => x.1 level) 0 := by
    intro ts
    rw [bracketLevel, startingBefore, List.filter_map, List.foldl_map, List.foldl_map]
    rfl
  have hkeyword : ∀ x : Token, x.kind.isKeyword = true → moves ⟨.word, x.text⟩ = moves x := by
    intro x hx
    funext level
    cases hk : x.kind <;> simp_all [moves, Token.levelAfter, TokenKind.isKeyword]
  rw [hmoves, hmoves, map_placeTokens_parse hkeyword]

theorem closesAt_parse (offset : Nat) (t : Text) :
    (parse t).closesAt offset = closesNext offset (tokenize t) := by
  -- both look for the first range that ends behind the offset, and is not that of a blank
  let reads : TokenKind → Bool × Bool := fun k => (k = .blank, k = .rightParen)
  let isNext : Option (Bool × Bool) × Span → Bool := fun x =>
    offset < x.2.stop && !x.1.any (·.1)
  have htree : (parse t).closesAt offset
      = (((parse t).leaves.map fun g => (g.tree.tokenKind?.map reads, g.span)).find? isNext).any
          fun x => x.1.any (·.2) := by
    have hnext : (fun g : Focus => decide (offset < g.stop) && g.tree.tokenKind? ≠ some .blank)
        = isNext ∘ fun g => (g.tree.tokenKind?.map reads, g.span) := by
      funext g
      cases hkind : g.tree.tokenKind? <;> simp [isNext, reads, hkind, Focus.span]
    rw [Tree.closesAt, hnext, List.find?_map, Option.any_map]
    cases (parse t).leaves.find? _ with
    | none => rfl
    | some g => cases hkind : g.tree.tokenKind? <;> simp [reads, hkind]
  have htokens : closesNext offset (tokenize t)
      = (((placeTokens 0 (tokenize t)).map fun p =>
          (some (reads p.token.kind), p.span)).find? isNext).any fun x => x.1.any (·.2) := by
    rw [List.find?_map, Option.any_map]
    rfl
  rw [htree, htokens, map_leaves_parse (fun _ => rfl)]

namespace Tree

/-- **Indentation is bracket counting.** In a text without headers the level of a line is found by
reading the tokens that start before it, whatever is wrong with the text. -/
theorem indentLevel_eq {t : Text} (h : headers (tokenize t) = []) (offset : Nat) :
    (parse t).indentLevel offset = lineLevel offset (tokenize t) := by
  rcases parse_cases t with ⟨hparse, -⟩ | ⟨_, _, -, -, hheaders, -⟩
  · have hopen : ((parse t).nodes.filter (Focus.isOpenAt offset)).length
        = bracketLevel (startingBefore offset 0 (tokenize t)) := by
      rw [← bracketLevel_startingBefore_parse, length_filter_nodes, hparse,
        openAt_node (by simp), openOf_regionTrees (fun x => isLexeme_of_mem_tokenize), tokens_node]
    rw [indentLevel, lineLevel, hopen, closesAt_parse]
  · exact absurd h hheaders

/-- Two clauses are open where the second line starts, for the parenthesis in the string opens
none, and the line closes one of them. -/
theorem indentLevel_sample :
    headers (tokenize "(a \"(\" (b\n) or".toList) = [] ∧
      (parse "(a \"(\" (b\n) or".toList).indentLevel 10 = 1 := by
  have h : headers (tokenize "(a \"(\" (b\n) or".toList) = [] := by decide +kernel
  refine ⟨h, ?_⟩
  rw [indentLevel_eq h]
  decide +kernel

end Tree

end CardQuery
