import CardQuery.Proofs.Parse.Shape

/-!
# Joining without errors

While items are joined, no tree is ever taken back: what is wrong with a part of the nest stays
wrong until the region ends. So when nothing is wrong with the region, nothing is wrong with the
nest after any item, and then each step leaves groups of the right shape behind.

Main statements: a faultless region consists of just the items that were joined
(`yieldEach_joined`), and a faultless region of solid items is nothing or one expression
(`joined_shape`).
-/

set_option autoImplicit false

namespace CardQuery

/-! ## What is wrong stays wrong -/

/-- The trees of a chain that are complete. -/
def Chain.parts : Chain → List Tree
  | .empty => []
  | .operand outer run | .afterAnd outer run => outer ++ run
  | .afterOr outer => outer

/-- The trees of a group that are complete. -/
def Group.parts (g : Group) : List Tree :=
  g.settled ++ g.chain.parts

/-- Whether nothing is wrong with the complete trees of a group. -/
def Group.Clean (g : Group) : Prop :=
  Tree.faultlessEach g.parts = true

/-- Whether nothing is wrong with the complete trees of a nest. -/
def Nest.Clean (n : Nest) : Prop :=
  n.group.Clean ∧ ∀ g ∈ n.around, g.Clean

theorem Tree.faultlessEach_of_faultless {k : NodeKind} {cs : List Tree}
    (h : (node k cs).faultless = true) : faultlessEach cs = true := by
  rw [faultless_node, Bool.and_eq_true] at h
  exact h.2

theorem faultlessEach_of_closeOr {outer run : List Tree}
    (h : Tree.faultlessEach (closeOr outer run) = true) :
    Tree.faultlessEach (outer ++ run) = true := by
  by_cases hne : outer = []
  · subst hne
    exact h
  · rw [closeOr_of_ne_nil hne] at h
    simp only [Tree.faultlessEach_cons, Tree.faultlessEach_nil, Bool.and_true] at h
    exact Tree.faultlessEach_of_faultless h

theorem Group.clean_of_trees {g : Group} (h : Tree.faultlessEach g.trees = true) : g.Clean := by
  rcases g with ⟨settled, chain⟩
  simp only [trees, Tree.faultlessEach_append, Bool.and_eq_true] at h
  simp only [Clean, parts, Tree.faultlessEach_append, Bool.and_eq_true]
  refine ⟨h.1, ?_⟩
  cases chain with
  | empty => rfl
  | operand outer run => exact faultlessEach_of_closeOr h.2
  | afterAnd outer run =>
      have hparts := faultlessEach_of_closeOr h.2
      simp only [Tree.binary, Tree.faultlessEach_append, Tree.faultlessEach_cons,
        Tree.faultlessEach_nil, Bool.and_true, Bool.and_eq_true] at hparts
      simp only [Chain.parts, Tree.faultlessEach_append, Bool.and_eq_true]
      exact ⟨hparts.1, Tree.faultlessEach_of_faultless hparts.2⟩
  | afterOr outer =>
      simp only [Chain.trees, Tree.binary, Tree.faultlessEach_cons, Tree.faultlessEach_nil,
        Bool.and_true] at h
      exact Tree.faultlessEach_of_faultless h.2

theorem Group.clean_of_addBlank {g : Group} {t : Token} (h : (g.addBlank t).Clean) : g.Clean := by
  rcases g with ⟨settled, chain⟩
  cases chain <;> simpa [addBlank, Clean, parts, Chain.parts] using h

/-- An added term is faultless in a clean group, which was clean before. -/
theorem Group.clean_of_addTerm {g : Group} {tree : Tree} (h : (g.addTerm tree).Clean) :
    g.Clean ∧ tree.faultless = true := by
  rcases g with ⟨settled, chain⟩
  have hjoined : ∀ {run : List Tree}, (Tree.binary .and (run ++ [tree])).faultless = true →
      Tree.faultlessEach run = true ∧ tree.faultless = true := by
    intro run hrun
    simpa using Tree.faultlessEach_of_faultless hrun
  cases chain with
  | empty => simpa [addTerm, Clean, parts, Chain.parts] using h
  | operand outer run | afterAnd outer run =>
      -- the term becomes the right operand of what has been read since the last `or`
      simp only [addTerm, Clean, parts, Chain.parts, Tree.faultlessEach_append,
        Tree.faultlessEach_cons, Tree.faultlessEach_nil, Bool.and_true, Bool.and_eq_true] at h ⊢
      exact ⟨⟨h.1, h.2.1, (hjoined h.2.2).1⟩, (hjoined h.2.2).2⟩
  | afterOr outer => simpa [addTerm, Clean, parts, Chain.parts, and_assoc] using h

theorem Group.clean_of_addKeyword {g : Group} {op : Connective} {t : Token}
    (h : (g.addKeyword op t).Clean) : g.Clean := by
  rcases g with ⟨settled, chain⟩
  have hbinary : ∀ {op : Connective} {run : List Tree}, (Tree.binary op run).faultless = true →
      Tree.faultlessEach run = true :=
    fun hrun => Tree.faultlessEach_of_faultless hrun
  cases op <;> cases chain <;>
    simp only [addKeyword, addAnd, addOr, Clean, parts, Chain.parts, Tree.faultlessEach_append,
      Tree.faultlessEach_cons, Tree.faultlessEach_nil, Tree.faultless_token, Bool.and_true,
      Bool.and_eq_true] at h ⊢
  case and.empty => exact h.1
  case and.operand => exact h
  case and.afterAnd => exact ⟨h.1, h.2.1, hbinary h.2.2⟩
  case and.afterOr => exact ⟨h.1, hbinary h.2.1⟩
  case or.empty => exact h.1
  -- an `or` closes the one before it, whose left operand is then a part of the new node
  case or.operand =>
    have hparts := faultlessEach_of_closeOr h.2
    rw [Tree.faultlessEach_append, Bool.and_eq_true] at hparts
    exact ⟨h.1, hparts⟩
  case or.afterAnd =>
    have hparts := faultlessEach_of_closeOr h.2
    rw [Tree.faultlessEach_append, Bool.and_eq_true, Tree.faultlessEach_cons,
      Tree.faultlessEach_nil, Bool.and_true] at hparts
    exact ⟨h.1, hparts.1, hbinary hparts.2⟩
  case or.afterOr => exact ⟨h.1, hbinary h.2⟩

namespace Nest

/-- A nest that is clean after a step was clean before. -/
theorem clean_of_step {n : Nest} {i : Item} (h : (n.step i).Clean) : n.Clean := by
  rcases n with ⟨g, around⟩
  obtain ⟨hg, haround⟩ := h
  cases i with
  | blank t => exact ⟨Group.clean_of_addBlank hg, haround⟩
  | keyword op t => exact ⟨Group.clean_of_addKeyword hg, haround⟩
  | term tree => exact ⟨(Group.clean_of_addTerm hg).1, haround⟩
  | opening t => exact List.forall_mem_cons.1 haround
  | closing t =>
      cases around with
      | nil => exact ⟨(Group.clean_of_addTerm hg).1, haround⟩
      | cons outer around =>
          -- the closed group is the clause that was added to the group around it
          obtain ⟨houter, hclause⟩ := Group.clean_of_addTerm hg
          have htrees := Tree.faultlessEach_of_faultless hclause
          rw [Tree.faultlessEach_append, Bool.and_eq_true] at htrees
          exact ⟨Group.clean_of_trees htrees.1, List.forall_mem_cons.2 ⟨houter, haround⟩⟩

theorem clean_of_foldl_step {n : Nest} {is : List Item} (h : (is.foldl step n).Clean) :
    n.Clean := by
  induction is generalizing n with
  | nil => exact h
  | cons i is ih => exact clean_of_step (ih h)

theorem clean_of_finishFrom {g : Group} {around : List Group}
    (h : Tree.faultlessEach (finishFrom g around) = true) : (Nest.mk g around).Clean := by
  induction around generalizing g with
  | nil => exact ⟨Group.clean_of_trees h, by simp⟩
  | cons outer around ih =>
      obtain ⟨hg, haround⟩ := ih h
      obtain ⟨houter, hclause⟩ := Group.clean_of_addTerm hg
      exact ⟨Group.clean_of_trees (Tree.faultlessEach_of_faultless hclause),
        List.forall_mem_cons.2 ⟨houter, haround⟩⟩

/-- When nothing is wrong with the region, nothing was wrong after its first items. -/
theorem clean_of_finish {n : Nest} {is : List Item}
    (h : Tree.faultlessEach (is.foldl step n).finish = true) : n.Clean :=
  clean_of_foldl_step (clean_of_finishFrom (g := (is.foldl step n).group) h)

end Nest

/-- No error node is left in a clean group by a token that has no place there. -/
theorem not_faultless_leaf_error {t : Token} {p : Problem} (hp : t.kind.problem? = some p) :
    (Tree.leaf .error t).faultless ≠ true :=
  Draft.not_faultless_error (t := t) (by simp) hp

/-- The terms of a faultless region are faultless. -/
theorem termsFaultless_of_finish {n : Nest} {is : List Item}
    (h : Tree.faultlessEach (is.foldl Nest.step n).finish = true) : TermsFaultless is := by
  induction is generalizing n with
  | nil => simp [TermsFaultless]
  | cons i is ih =>
      intro tree htree
      rcases List.mem_cons.1 htree with rfl | htree
      · exact (Group.clean_of_addTerm (Nest.clean_of_finish (n := n.step (.term tree)) h).1).2
      · exact ih h tree htree

/-! ## Nothing is added and nothing is lost -/

/-- The items of a group. -/
def Group.yield (g : Group) : List Item :=
  Tree.yieldEach g.trees

@[simp] theorem yieldEach_closeOr (outer run : List Tree) :
    Tree.yieldEach (closeOr outer run) = Tree.yieldEach outer ++ Tree.yieldEach run := by
  cases outer <;> simp [closeOr, Tree.binary]

theorem Group.yield_addBlank (g : Group) {t : Token} (ht : t.kind = .blank) :
    (g.addBlank t).yield = g.yield ++ [.blank t] := by
  rcases g with ⟨settled, chain⟩
  cases chain <;>
    simp [addBlank, yield, trees, Chain.trees, Tree.binary, Item.ofMark?_blank ht]

theorem Group.yield_addTerm (g : Group) (tree : Tree) :
    (g.addTerm tree).yield = g.yield ++ tree.yield := by
  rcases g with ⟨settled, chain⟩
  cases chain <;> simp [addTerm, yield, trees, Chain.trees, Tree.binary]

theorem Group.yield_addKeyword {g : Group} {op : Connective} {t : Token}
    (ht : t.kind = .keyword op) (h : (g.addKeyword op t).Clean) :
    (g.addKeyword op t).yield = g.yield ++ [.keyword op t] := by
  rcases g with ⟨settled, chain⟩
  have herror : (Tree.leaf .error t).faultless ≠ true :=
    not_faultless_leaf_error (by rw [ht]; rfl)
  have hmark := Item.ofMark?_keyword ht
  cases op <;> cases chain <;>
    simp_all [addKeyword, addAnd, addOr, yield, trees, Chain.trees, Tree.binary, Clean, parts,
      Chain.parts]

namespace Nest

theorem yieldEach_finishFrom (g : Group) (around : List Group) :
    Tree.yieldEach (finishFrom g around)
      = around.reverse.flatMap Group.yield ++ g.yield := by
  induction around generalizing g with
  | nil => simp [finishFrom, Group.yield]
  | cons outer around ih =>
      have hg : Tree.yieldEach g.trees = g.yield := rfl
      simp [finishFrom, ih, Group.yield_addTerm, hg]

/-- A step that leaves the nest clean adds its item. -/
theorem yieldEach_step {n : Nest} {i : Item} (hi : i.Proper) (h : (n.step i).Clean) :
    Tree.yieldEach (n.step i).finish = Tree.yieldEach n.finish ++ [i] := by
  rcases n with ⟨g, around⟩
  have hg : Tree.yieldEach g.trees = g.yield := rfl
  cases i with
  | blank t => simp [step, finish, yieldEach_finishFrom, Group.yield_addBlank g hi]
  | keyword op t => simp [step, finish, yieldEach_finishFrom, Group.yield_addKeyword hi h.1]
  | term tree =>
      obtain ⟨k, cs, rfl, hk⟩ := hi
      simp [step, finish, yieldEach_finishFrom, Group.yield_addTerm, Tree.yield_term hk]
  | opening t =>
      simp [step, finish, yieldEach_finishFrom, Group.yield, Group.ofTrees, Group.trees,
        Chain.trees, Item.ofMark?_leftParen hi]
  | closing t =>
      cases around with
      | nil =>
          -- a closing parenthesis without an opening one is an error
          have ht : t.kind = .rightParen := hi
          exact absurd (Group.clean_of_addTerm h.1).2 (not_faultless_leaf_error (by rw [ht]; rfl))
      | cons outer around =>
          simp [step, finish, yieldEach_finishFrom, Group.yield_addTerm, hg,
            Item.ofMark?_rightParen hi]

theorem yieldEach_foldl_step {n : Nest} {is : List Item} (hproper : ∀ i ∈ is, i.Proper)
    (h : Tree.faultlessEach (is.foldl step n).finish = true) :
    Tree.yieldEach (is.foldl step n).finish = Tree.yieldEach n.finish ++ is := by
  induction is generalizing n with
  | nil => simp
  | cons i is ih =>
      have hstep : (n.step i).Clean := @clean_of_finish _ is h
      rw [List.foldl_cons, ih (fun x hx => hproper x (by simp [hx])) h,
        yieldEach_step (hproper i (by simp)) hstep, List.append_assoc, List.singleton_append]

end Nest

/-- **A faultless region consists of the items that were joined.** -/
theorem yieldEach_joined {is : List Item} (hproper : ∀ i ∈ is, i.Proper)
    (h : Tree.faultlessEach (joined is) = true) : Tree.yieldEach (joined is) = is := by
  have hyield := Nest.yieldEach_foldl_step (n := Nest.start) hproper h
  simpa [joined, Nest.start, Nest.finish, Nest.finishFrom, Group.ofTrees, Group.trees, Chain.trees]
    using hyield

/-! ## The shape that clean steps leave -/

/-- The part of an `or` node before its right operand. -/
def OrBegun (outer : List Tree) : Prop :=
  ∃ l kw, outer = [l, .token kw] ∧ Shape (.row .or) l ∧ kw.kind = .keyword .or

/-- The shape of a chain without errors and without blanks. -/
def Chain.Shaped : Chain → Prop
  | .empty => True
  | .operand outer run =>
    (outer = [] ∨ OrBegun outer) ∧ ∃ t, run = [t] ∧ Shape (.row .and) t
  | .afterAnd outer run =>
    (outer = [] ∨ OrBegun outer) ∧
      ∃ l kw, run = [l, .token kw] ∧ Shape (.row .and) l ∧ kw.kind = .keyword .and
  | .afterOr outer => OrBegun outer

/-- The shape of the groups of a nest, from the innermost on: each but the outermost begins with
its parenthesis. -/
def Nest.ShapedFrom (g : Group) : List Group → Prop
  | [] => g.chain.Shaped ∧ g.settled = []
  | outer :: around =>
    g.chain.Shaped ∧ (∃ o, g.settled = [.token o] ∧ o.kind = .leftParen) ∧ ShapedFrom outer around

theorem closeOr_shape {outer : List Tree} {t : Tree} (ho : outer = [] ∨ OrBegun outer)
    (ht : Shape (.row .and) t) : ∃ t', closeOr outer [t] = [t'] ∧ Shape (.row .or) t' := by
  rcases ho with rfl | ⟨l, kw, rfl, hl, hkw⟩
  · exact ⟨t, rfl, .ofAnd ht⟩
  · refine ⟨_, rfl, ?_⟩
    exact .join (k := some kw) hl ⟨by simpa using hkw, by simp⟩ ht

/-- A keyword without a right operand is an error. -/
theorem not_faultless_dangling (op : Connective) (l : Tree) (kw : Token) :
    (Tree.binary op [l, .token kw]).faultless ≠ true := by
  intro h
  have hclosing := Tree.closingProblem?_eq_none h
  cases hl : l.kind? <;> simp [closingProblem?, List.filterMap_cons, hl] at hclosing

theorem Chain.shaped_addTerm {settled : List Tree} {chain : Chain} {t : Tree}
    (h : chain.Shaped) (ht : Shape .term t) :
    ((Group.mk settled chain).addTerm t).chain.Shaped ∧
      ((Group.mk settled chain).addTerm t).settled = settled := by
  refine ⟨?_, by cases chain <;> rfl⟩
  cases chain with
  | empty => exact ⟨Or.inl rfl, t, rfl, .ofTerm ht⟩
  | operand outer run =>
      obtain ⟨houter, l, rfl, hl⟩ := h
      exact ⟨houter, _, rfl, .join (k := none) hl ⟨by simp, by simp⟩ ht⟩
  | afterAnd outer run =>
      obtain ⟨houter, l, kw, rfl, hl, hkw⟩ := h
      exact ⟨houter, _, rfl, .join (k := some kw) hl ⟨by simpa using hkw, by simp⟩ ht⟩
  | afterOr outer => exact ⟨Or.inr h, t, rfl, .ofTerm ht⟩

theorem Chain.shaped_addKeyword {settled : List Tree} {chain : Chain} {op : Connective} {t : Token}
    (h : chain.Shaped) (ht : t.kind = .keyword op)
    (hclean : ((Group.mk settled chain).addKeyword op t).Clean) :
    ((Group.mk settled chain).addKeyword op t).chain.Shaped ∧
      ((Group.mk settled chain).addKeyword op t).settled = settled := by
  have herror : (Tree.leaf .error t).faultless ≠ true :=
    not_faultless_leaf_error (by rw [ht]; rfl)
  cases chain with
  | empty =>
      cases op <;> simp [Group.addKeyword, Group.addAnd, Group.addOr, Group.Clean, Group.parts,
        Chain.parts, herror] at hclean
  | operand outer run =>
      obtain ⟨houter, l, rfl, hl⟩ := h
      cases op with
      | and => exact ⟨⟨houter, l, t, rfl, hl, ht⟩, rfl⟩
      | or =>
          obtain ⟨l', hclose, hl'⟩ := closeOr_shape houter hl
          refine ⟨⟨l', t, ?_, hl', ht⟩, rfl⟩
          show closeOr outer [l] ++ [.token t] = _
          rw [hclose]
          rfl
  | afterAnd outer run =>
      -- after an `and` any keyword leaves it without its right operand
      obtain ⟨houter, l, kw, rfl, hl, hkw⟩ := h
      have hdangling := not_faultless_dangling .and l kw
      cases op with
      | and =>
          simp [Group.addKeyword, Group.addAnd, Group.Clean, Group.parts, Chain.parts,
            hdangling] at hclean
      | or =>
          simp only [Group.addKeyword, Group.addOr, Group.Clean, Group.parts, Chain.parts,
            Tree.faultlessEach_append, Bool.and_eq_true] at hclean
          have hparts := faultlessEach_of_closeOr hclean.2.1
          simp [hdangling] at hparts
  | afterOr outer =>
      obtain ⟨l, kw, rfl, hl, hkw⟩ := h
      have hdangling := not_faultless_dangling .or l kw
      cases op <;> simp [Group.addKeyword, Group.addAnd, Group.addOr, Group.Clean, Group.parts,
        Chain.parts, hdangling] at hclean

/-! ## A whole region -/

/-- Whether an item is no blank, and spelled if it is a term. -/
def Item.Sound (i : Item) : Prop :=
  i.isBlank = false ∧ i.Proper ∧ ∀ tree, i = .term tree → ∃ w e, SpelledTerm w tree e

/-- The trees of a chain without errors are one expression, if there is any. -/
theorem Chain.trees_of_shaped {c : Chain} (h : c.Shaped)
    (hclean : Tree.faultlessEach c.trees = true) :
    c.trees = [] ∨ ∃ t, c.trees = [t] ∧ Shape (.row .or) t := by
  cases c with
  | empty => exact Or.inl rfl
  | operand outer run =>
      obtain ⟨houter, t, rfl, ht⟩ := h
      exact Or.inr (closeOr_shape houter ht)
  | afterAnd outer run =>
      obtain ⟨-, l, kw, rfl, -, -⟩ := h
      have hparts := faultlessEach_of_closeOr hclean
      simp [not_faultless_dangling .and l kw] at hparts
  | afterOr outer =>
      obtain ⟨l, kw, rfl, -, -⟩ := h
      simp [Chain.trees, not_faultless_dangling .or l kw] at hclean

/-- A closed group in parentheses is a term. -/
theorem shape_clause {g : Group} {o t : Token} (hchain : g.chain.Shaped)
    (hsettled : g.settled = [.token o]) (ho : o.kind = .leftParen) (ht : t.kind = .rightParen)
    (h : (Tree.node .clause (g.trees ++ [.token t])).faultless = true) :
    Shape .term (.node .clause (g.trees ++ [.token t])) := by
  have htrees := Tree.faultlessEach_of_faultless h
  simp only [Group.trees, Tree.faultlessEach_append, Bool.and_eq_true] at htrees
  have hg : g.trees = .token o :: g.chain.trees := by rw [Group.trees, hsettled]; rfl
  rw [hg]
  rcases Chain.trees_of_shaped hchain htrees.1.2 with hnil | ⟨t', hone, ht'⟩
  · rw [hnil]
    exact .empty ho ht
  · rw [hone]
    exact .clause ho ht ht'

/-- A group that is never closed is an error. -/
theorem not_faultless_unclosed {g : Group} {o : Token} (hchain : g.chain.Shaped)
    (hsettled : g.settled = [.token o]) (ho : o.kind = .leftParen) :
    (Tree.node .clause g.trees).faultless ≠ true := by
  intro h
  have htrees := Tree.faultlessEach_of_faultless h
  simp only [Group.trees, Tree.faultlessEach_append, Bool.and_eq_true] at htrees
  have hg : g.trees = .token o :: g.chain.trees := by rw [Group.trees, hsettled]; rfl
  have hclosing := Tree.closingProblem?_eq_none h
  rw [hg] at hclosing
  rcases Chain.trees_of_shaped hchain htrees.2 with hnil | ⟨t, hone, ht⟩
  · simp [closingProblem?, Tree.isClosed, Tree.children, hnil, ho] at hclosing
  · obtain ⟨k, hk⟩ := ht.isNode
    cases t with
    | token t => cases hk
    | node k cs => simp [closingProblem?, Tree.isClosed, Tree.children, hone, ho] at hclosing

namespace Nest

theorem ShapedFrom.chain {g : Group} {around : List Group} (h : ShapedFrom g around) :
    g.chain.Shaped := by
  cases around with
  | nil => exact h.1
  | cons outer around => exact h.1

/-- A group with another chain of the right shape takes the place of the innermost. -/
theorem ShapedFrom.replace {g g' : Group} {around : List Group} (h : ShapedFrom g around)
    (hg : g'.chain.Shaped ∧ g'.settled = g.settled) : ShapedFrom g' around := by
  obtain ⟨hchain, hsettled⟩ := hg
  cases around with
  | nil => exact ⟨hchain, hsettled.trans h.2⟩
  | cons outer around =>
      obtain ⟨-, ⟨o, ho, hparen⟩, houter⟩ := h
      exact ⟨hchain, ⟨o, hsettled.trans ho, hparen⟩, houter⟩

/-- A clean step keeps the shape of the groups. -/
theorem shaped_step {n : Nest} {i : Item} (h : ShapedFrom n.group n.around) (hi : i.Sound)
    (hclean : (n.step i).Clean) : ShapedFrom (n.step i).group (n.step i).around := by
  rcases n with ⟨g, around⟩
  obtain ⟨hblank, hproper, hspelled⟩ := hi
  cases i with
  | blank t => cases hblank
  | keyword op t =>
      exact ShapedFrom.replace h (Chain.shaped_addKeyword h.chain hproper hclean.1)
  | term tree =>
      obtain ⟨w, e, hw⟩ := hspelled tree rfl
      exact ShapedFrom.replace h (Chain.shaped_addTerm h.chain (.simple hw))
  | opening t => exact ⟨trivial, ⟨t, rfl, hproper⟩, h⟩
  | closing t =>
      -- the innermost group becomes a clause, which is a term of the group around it
      cases around with
      | nil =>
          have ht : t.kind = .rightParen := hproper
          exact absurd (Group.clean_of_addTerm hclean.1).2
            (not_faultless_leaf_error (by rw [ht]; rfl))
      | cons outer around =>
          obtain ⟨hchain, ⟨o, hsettled, ho⟩, houter⟩ := h
          have hclause := shape_clause hchain hsettled ho hproper
            (Group.clean_of_addTerm hclean.1).2
          exact ShapedFrom.replace houter (Chain.shaped_addTerm houter.chain hclause)

theorem shaped_foldl_step {n : Nest} {is : List Item} (h : ShapedFrom n.group n.around)
    (hsound : ∀ i ∈ is, i.Sound)
    (hclean : Tree.faultlessEach (is.foldl step n).finish = true) :
    ShapedFrom (is.foldl step n).group (is.foldl step n).around := by
  induction is generalizing n with
  | nil => exact h
  | cons i is ih =>
      have hstep : (n.step i).Clean := @clean_of_finish _ is hclean
      exact ih (shaped_step h (hsound i (by simp)) hstep) (fun x hx => hsound x (by simp [hx]))
        hclean

/-- A region that ends without errors is one expression, if there is any. -/
theorem finish_of_shaped {n : Nest} (h : ShapedFrom n.group n.around)
    (hclean : Tree.faultlessEach n.finish = true) :
    n.finish = [] ∨ ∃ t, n.finish = [t] ∧ Shape (.row .or) t := by
  rcases n with ⟨g, around⟩
  cases around with
  | nil =>
      obtain ⟨hchain, hsettled⟩ := h
      have hg : (Nest.mk g []).finish = g.chain.trees := by
        show g.settled ++ g.chain.trees = _
        rw [hsettled, List.nil_append]
      rw [hg] at hclean ⊢
      exact Chain.trees_of_shaped hchain hclean
  | cons outer around =>
      -- a group is still open at the end of the region
      obtain ⟨hchain, ⟨o, hsettled, ho⟩, -⟩ := h
      have hfinish := clean_of_finishFrom (g := outer.addTerm (.node .clause g.trees)) hclean
      exact absurd (Group.clean_of_addTerm hfinish.1).2 (not_faultless_unclosed hchain hsettled ho)

end Nest

/-- **A faultless region of solid items is nothing or one expression.** -/
theorem joined_shape {is : List Item} (hsound : ∀ i ∈ is, i.Sound)
    (h : Tree.faultlessEach (joined is) = true) :
    (is = [] ∧ joined is = []) ∨ ∃ t, joined is = [t] ∧ Shape (.row .or) t ∧ t.yield = is := by
  have hyield := yieldEach_joined (fun i hi => (hsound i hi).2.1) h
  have hshaped : Nest.ShapedFrom (is.foldl Nest.step Nest.start).group
      (is.foldl Nest.step Nest.start).around :=
    Nest.shaped_foldl_step (n := Nest.start) ⟨trivial, rfl⟩ hsound h
  rcases Nest.finish_of_shaped hshaped h with hnil | ⟨t, hone, ht⟩
  · have hjoined : joined is = [] := hnil
    rw [hjoined] at hyield
    exact Or.inl ⟨hyield.symm, hjoined⟩
  · have hjoined : joined is = [t] := hone
    refine Or.inr ⟨t, hjoined, ht, ?_⟩
    rw [hjoined] at hyield
    simpa using hyield

end CardQuery
