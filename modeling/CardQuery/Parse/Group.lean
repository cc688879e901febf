import CardQuery.Parse.Term

/-!
# From items to expressions

Items are joined from left to right. Neighbours with or without `and` between them join first,
`or` joins what `and` has joined, and both lean to the left. A `Group` is an open clause, or the
region itself: what is settled in it, and the `Chain` of expressions still being joined. `Nest` is
the group being read inside the groups that enclose it.

No input stops the reading. A keyword with no term before it becomes an error node, a keyword with
none after it leaves its node with one operand, and a clause that is never closed ends where its
region ends.
-/

set_option autoImplicit false

namespace CardQuery

/-- The expressions of a group that are still being joined. -/
inductive Chain
  /-- No expression yet. -/
  | empty
  /-- `run` is an operand of `and`, with the blanks after it. `outer` is the part of an `or` node
  before its right operand, or nothing when no `or` is open. -/
  | operand (outer run : List Tree)
  /-- `run` ends with the keyword `and`, which has no right operand yet. -/
  | afterAnd (outer run : List Tree)
  /-- `outer` ends with the keyword `or`, which has no right operand yet. -/
  | afterOr (outer : List Tree)
  deriving Repr

/-- The node that joins its children by a connective. -/
def Tree.binary (op : Connective) (children : List Tree) : Tree :=
  .node (.binary op) children

/-- `run` as the right operand of the `or` node begun in `outer`, if one is begun. -/
def closeOr (outer run : List Tree) : List Tree :=
  if outer.isEmpty then run else [.binary .or (outer ++ run)]

/-- The trees of a chain that ends here. -/
def Chain.trees : Chain → List Tree
  | .empty => []
  | .operand outer run => closeOr outer run
  | .afterAnd outer run => closeOr outer [.binary .and run]
  | .afterOr outer => [.binary .or outer]

/-- An open clause or region. -/
structure Group where
  settled : List Tree
  chain : Chain
  deriving Repr

namespace Group

/-- A group that begins with these trees. -/
def ofTrees (settled : List Tree) : Group :=
  ⟨settled, .empty⟩

/-- The trees of a group that ends here. -/
def trees (g : Group) : List Tree :=
  g.settled ++ g.chain.trees

/-- A group with a further blank. -/
def addBlank (g : Group) (t : Token) : Group :=
  match g.chain with
  | .empty => ⟨g.settled ++ [.token t], .empty⟩
  | .operand outer run => ⟨g.settled, .operand outer (run ++ [.token t])⟩
  | .afterAnd outer run => ⟨g.settled, .afterAnd outer (run ++ [.token t])⟩
  | .afterOr outer => ⟨g.settled, .afterOr (outer ++ [.token t])⟩

/-- A group with a further term. -/
def addTerm (g : Group) (tree : Tree) : Group :=
  match g.chain with
  | .empty => ⟨g.settled, .operand [] [tree]⟩
  | .operand outer run => ⟨g.settled, .operand outer [.binary .and (run ++ [tree])]⟩
  | .afterAnd outer run => ⟨g.settled, .operand outer [.binary .and (run ++ [tree])]⟩
  | .afterOr outer => ⟨g.settled, .operand outer [tree]⟩

/-- A group with the keyword `and`. -/
def addAnd (g : Group) (t : Token) : Group :=
  match g.chain with
  | .empty => ⟨g.settled ++ [.leaf .error t], .empty⟩
  | .operand outer run => ⟨g.settled, .afterAnd outer (run ++ [.token t])⟩
  | .afterAnd outer run => ⟨g.settled, .afterAnd outer [.binary .and run, .token t]⟩
  | .afterOr outer => ⟨g.settled ++ [.binary .or outer, .leaf .error t], .empty⟩

/-- A group with the keyword `or`. -/
def addOr (g : Group) (t : Token) : Group :=
  match g.chain with
  | .empty => ⟨g.settled ++ [.leaf .error t], .empty⟩
  | .operand outer run => ⟨g.settled, .afterOr (closeOr outer run ++ [.token t])⟩
  | .afterAnd outer run =>
    ⟨g.settled, .afterOr (closeOr outer [.binary .and run] ++ [.token t])⟩
  | .afterOr outer => ⟨g.settled, .afterOr [.binary .or outer, .token t]⟩

/-- A group with a keyword. -/
def addKeyword (g : Group) : Connective → Token → Group
  | .and => g.addAnd
  | .or => g.addOr

/-- The tokens of a group. -/
def tokens (g : Group) : List Token :=
  Tree.tokensOf g.trees

@[simp] theorem tokensOf_closeOr (outer run : List Tree) :
    Tree.tokensOf (closeOr outer run) = Tree.tokensOf outer ++ Tree.tokensOf run := by
  cases outer <;> simp [closeOr, Tree.binary]

@[simp] theorem tokens_addBlank (g : Group) (t : Token) :
    (g.addBlank t).tokens = g.tokens ++ [t] := by
  rcases g with ⟨settled, chain⟩
  cases chain <;> simp [addBlank, tokens, trees, Chain.trees, Tree.binary]

@[simp] theorem tokens_addTerm (g : Group) (tree : Tree) :
    (g.addTerm tree).tokens = g.tokens ++ tree.tokens := by
  rcases g with ⟨settled, chain⟩
  cases chain <;> simp [addTerm, tokens, trees, Chain.trees, Tree.binary]

@[simp] theorem tokens_addKeyword (g : Group) (op : Connective) (t : Token) :
    (g.addKeyword op t).tokens = g.tokens ++ [t] := by
  rcases g with ⟨settled, chain⟩
  cases op <;> cases chain <;>
    simp [addKeyword, addAnd, addOr, tokens, trees, Chain.trees, Tree.binary]

end Group

/-- The group being read and the groups around it, the nearest first. -/
structure Nest where
  group : Group
  around : List Group
  deriving Repr

namespace Nest

/-- The start of a region. -/
def start : Nest :=
  ⟨.ofTrees [], []⟩

/-- One more item. A closing parenthesis that closes nothing is an error. -/
def step (n : Nest) : Item → Nest
  | .blank t => ⟨n.group.addBlank t, n.around⟩
  | .keyword op t => ⟨n.group.addKeyword op t, n.around⟩
  | .term tree => ⟨n.group.addTerm tree, n.around⟩
  | .opening t => ⟨.ofTrees [.token t], n.group :: n.around⟩
  | .closing t =>
    match n.around with
    | [] => ⟨n.group.addTerm (.leaf .error t), []⟩
    | g :: gs => ⟨g.addTerm (.node .clause (n.group.trees ++ [.token t])), gs⟩

/-- The trees of a region that ends in `g` with the groups `around` it still open. -/
def finishFrom (g : Group) : List Group → List Tree
  | [] => g.trees
  | outer :: around => finishFrom (outer.addTerm (.node .clause g.trees)) around

/-- The trees of a region that ends here. -/
def finish (n : Nest) : List Tree :=
  finishFrom n.group n.around

/-- The tokens of a region that ends here. -/
def tokens (n : Nest) : List Token :=
  Tree.tokensOf n.finish

theorem tokensOf_finishFrom (g : Group) (around : List Group) :
    Tree.tokensOf (finishFrom g around) = around.reverse.flatMap Group.tokens ++ g.tokens := by
  induction around generalizing g with
  | nil => simp [finishFrom, Group.tokens]
  | cons outer around ih =>
    have h : Tree.tokensOf g.trees = g.tokens := rfl
    simp [finishFrom, ih, h]

theorem tokens_step (n : Nest) (i : Item) : (n.step i).tokens = n.tokens ++ i.tokens := by
  rcases n with ⟨g, around⟩
  have hg : Tree.tokensOf g.trees = g.tokens := rfl
  cases i with
  | opening t =>
    simp [step, tokens, finish, tokensOf_finishFrom, Item.tokens, Group.tokens, Group.ofTrees,
      Group.trees, Chain.trees]
  | closing t =>
    cases around <;> simp [step, tokens, finish, tokensOf_finishFrom, Item.tokens, hg]
  | _ => simp [step, tokens, finish, tokensOf_finishFrom, Item.tokens]

theorem tokens_foldl_step (n : Nest) (is : List Item) :
    (is.foldl step n).tokens = n.tokens ++ is.flatMap Item.tokens := by
  induction is generalizing n with
  | nil => simp
  | cons i is ih => simp [ih, tokens_step]

end Nest

/-- The trees of a region with these tokens. -/
def regionTrees (ts : List Token) : List Tree :=
  ((items ts).foldl Nest.step Nest.start).finish

/-- A region's trees have the tokens of its items, in order. -/
theorem tokensOf_regionTrees (ts : List Token) :
    Tree.tokensOf (regionTrees ts) = (items ts).flatMap Item.tokens :=
  Nest.tokens_foldl_step Nest.start (items ts)

end CardQuery
