import CardQuery.Parse.Program
import CardQuery.Proofs.Tree.Arrangement
import CardQuery.Proofs.Tree.Respelling

/-!
# Reading what is spelled anew

Reading looks at the kinds of tokens, at the newlines in blanks and at which words spell an
argument. A respelling changes none of these, so every step of the reading goes the same way: a
token is gathered, joined and cut as before, and the result is the respelled result.

Main statement: the tree of respelled tokens is the respelled tree (`parseTokens_respell`).
-/

set_option autoImplicit false

namespace CardQuery

variable (r : Respelling)

/-! ## Gathering -/

/-- An item spelled anew. -/
def Item.respell : Item → Item
  | .blank t => .blank (r.token t)
  | .keyword op t => .keyword op (r.token t)
  | .opening t => .opening (r.token t)
  | .closing t => .closing (r.token t)
  | .term tree => .term (tree.respell r)

namespace Draft

/-- A begun item spelled anew. -/
def respell : Draft → Draft
  | .complete i => .complete (i.respell r)
  | .minus m => .minus (r.token m)
  | .word sign w => .word (sign.map r.token) (r.token w)
  | .tag sign a op => .tag (sign.map r.token) (r.token a) (r.token op)
  | .value sign a op words =>
    .value (sign.map r.token) (r.token a) (r.token op) (words.map r.token)
  | .stray ts => .stray (ts.map r.token)

theorem respell_tagOf (sign : Option Token) (parts : List Tree) :
    (tagOf sign parts).respell r = tagOf (sign.map r.token) (parts.map (Tree.respell r)) := by
  cases sign <;> simp [tagOf, Item.respell]

theorem start_respell (t : Token) : start (r.token t) = (start t).respell r := by
  unfold start
  rw [r.kind_token]
  split <;> simp [respell, Item.respell]

theorem extend_respell (d : Draft) (t : Token) :
    (d.respell r).extend (r.token t) = (d.extend t).map (respell r) := by
  cases d with
  | complete i => rfl
  | tag sign a op =>
      simp only [respell, extend, r.kind_token]
      -- after a comparison a keyword becomes a word, and is spelled as that word
      split <;> simp_all [respell, respell_tagOf, ← r.token_word_of_keyword]
  | _ =>
      simp only [respell, extend, r.kind_token]
      split <;> simp [respell, respell_tagOf]

theorem finish_respell (d : Draft) (next : Option TokenKind) :
    (d.respell r).finish next = (d.finish next).respell r := by
  cases d with
  | complete i => rfl
  | minus m =>
      simp only [respell, finish]
      split
      · simp [Item.respell]
      · simp [respell_tagOf]
  | word sign w =>
      cases sign with
      | none => simp [respell, finish, Item.respell]
      | some s => simp [respell, finish, respell_tagOf]
  | tag sign a op => simp [respell, finish, respell_tagOf]
  | value sign a op words => simp [respell, finish, respell_tagOf]
  | stray ts => simp [respell, finish, Item.respell]

theorem run_respell (d : Draft) (ts : List Token) :
    (d.respell r).run (ts.map r.token) = (d.run ts).map (Item.respell r) := by
  induction ts generalizing d with
  | nil => simp [run, finish_respell]
  | cons t ts ih =>
      rw [List.map_cons, run, run, extend_respell]
      cases d.extend t with
      | some d' => exact ih d'
      | none =>
          rw [Option.map_none, start_respell, r.kind_token]
          simp only [finish_respell, ih, List.map_cons]

end Draft

theorem items_respell (ts : List Token) :
    items (ts.map r.token) = (items ts).map (Item.respell r) := by
  cases ts with
  | nil => rfl
  | cons t ts => rw [List.map_cons, items, items, Draft.start_respell, Draft.run_respell]

/-! ## Joining -/

theorem closeOr_respell (outer run : List Tree) :
    closeOr (outer.map (Tree.respell r)) (run.map (Tree.respell r))
      = (closeOr outer run).map (Tree.respell r) := by
  cases outer <;> simp [closeOr, Tree.binary]

/-- A chain spelled anew. -/
def Chain.respell : Chain → Chain
  | .empty => .empty
  | .operand outer run => .operand (outer.map (Tree.respell r)) (run.map (Tree.respell r))
  | .afterAnd outer run => .afterAnd (outer.map (Tree.respell r)) (run.map (Tree.respell r))
  | .afterOr outer => .afterOr (outer.map (Tree.respell r))

namespace Group

/-- A group spelled anew. -/
def respell (g : Group) : Group :=
  ⟨g.settled.map (Tree.respell r), g.chain.respell r⟩

variable (g : Group) (t : Token)

theorem trees_respell : (g.respell r).trees = g.trees.map (Tree.respell r) := by
  rcases g with ⟨settled, chain⟩
  cases chain with
  | operand outer run => simp [respell, trees, Chain.respell, Chain.trees, closeOr_respell]
  | afterAnd outer run =>
      have hclose := closeOr_respell r outer [.binary .and run]
      simpa [respell, trees, Chain.respell, Chain.trees, Tree.binary] using hclose
  | _ => simp [respell, trees, Chain.respell, Chain.trees, Tree.binary]

theorem addBlank_respell : (g.respell r).addBlank (r.token t) = (g.addBlank t).respell r := by
  rcases g with ⟨settled, chain⟩
  cases chain <;> simp [respell, Chain.respell, addBlank]

theorem addTerm_respell (tree : Tree) :
    (g.respell r).addTerm (tree.respell r) = (g.addTerm tree).respell r := by
  rcases g with ⟨settled, chain⟩
  cases chain <;> simp [respell, Chain.respell, addTerm, Tree.binary]

theorem addKeyword_respell (op : Connective) :
    (g.respell r).addKeyword op (r.token t) = (g.addKeyword op t).respell r := by
  rcases g with ⟨settled, chain⟩
  cases op <;> cases chain <;>
    simp [respell, Chain.respell, addKeyword, addAnd, addOr, Tree.binary, ← closeOr_respell]

end Group

namespace Nest

/-- A nest spelled anew. -/
def respell (n : Nest) : Nest :=
  ⟨n.group.respell r, n.around.map (Group.respell r)⟩

theorem step_respell (n : Nest) (i : Item) :
    (n.respell r).step (i.respell r) = (n.step i).respell r := by
  rcases n with ⟨g, around⟩
  cases i with
  | blank t => simp [respell, Item.respell, step, Group.addBlank_respell]
  | keyword op t => simp [respell, Item.respell, step, Group.addKeyword_respell]
  | term tree => simp [respell, Item.respell, step, Group.addTerm_respell]
  | opening t =>
      simp [respell, Item.respell, step, Group.ofTrees, Group.respell, Chain.respell]
  | closing t =>
      cases around with
      | nil =>
          have hadd := g.addTerm_respell r (.leaf .error t)
          rw [Tree.respell_leaf] at hadd
          simp [respell, Item.respell, step, hadd]
      | cons outer around =>
          have hadd := outer.addTerm_respell r (.node .clause (g.trees ++ [.token t]))
          rw [Tree.respell_node] at hadd
          simp [respell, Item.respell, step, ← hadd, Group.trees_respell]

theorem foldl_step_respell (n : Nest) (is : List Item) :
    (is.map (Item.respell r)).foldl step (n.respell r) = (is.foldl step n).respell r := by
  induction is generalizing n with
  | nil => rfl
  | cons i is ih => rw [List.map_cons, List.foldl_cons, List.foldl_cons, step_respell, ih]

theorem finishFrom_respell (g : Group) (around : List Group) :
    finishFrom (g.respell r) (around.map (Group.respell r))
      = (finishFrom g around).map (Tree.respell r) := by
  induction around generalizing g with
  | nil => exact g.trees_respell r
  | cons outer around ih =>
      have hadd := outer.addTerm_respell r (.node .clause g.trees)
      rw [Tree.respell_node, ← Group.trees_respell] at hadd
      rw [List.map_cons, finishFrom, hadd, ih, finishFrom]

end Nest

/-- The trees of a region spelled anew are the respelled trees. -/
theorem regionTrees_respell (ts : List Token) :
    regionTrees (ts.map r.token) = (regionTrees ts).map (Tree.respell r) := by
  have hstart : Nest.start.respell r = Nest.start := rfl
  rw [regionTrees, items_respell, ← hstart, Nest.foldl_step_respell]
  exact Nest.finishFrom_respell r _ _

/-! ## Headers and sections -/

/-- A section spelled anew. -/
def Section.respell (s : Section) : Section :=
  ⟨r.token s.name, r.token s.colon, s.body.map r.token⟩

theorem isHeader_respell (t : Token) (rest : List Token) :
    isHeader (r.token t) (rest.map r.token) = isHeader t rest := by
  have hcolon : (rest.map r.token).head?.any (fun c => c.kind = .comparison .colon)
      = rest.head?.any fun c => c.kind = .comparison .colon := by
    cases rest <;> rfl
  have hblank : (rest.map r.token).tail.head?.all Token.isBlank
      = rest.tail.head?.all Token.isBlank := by
    rcases rest with _ | ⟨c, _ | ⟨b, rest⟩⟩ <;> rfl
  unfold isHeader
  rw [hcolon, hblank, r.kind_token]
  -- only a word is asked whether it spells an argument
  by_cases hword : t.kind = .word
  · simp [Respelling.token, hword, r.isArgument_spell]
  · simp [hword]

theorem startsLine_respell (first : Bool) (t : Token) :
    startsLine first (r.token t) = startsLine first t := by
  unfold startsLine
  by_cases hblank : t.kind = .blank
  · simp only [Respelling.token, Token.isBlank, hblank, r.newline_spell]
  · simp [Respelling.token, Token.isBlank, hblank]

theorem cutFrom_respell (first atLine : Bool) (ts : List Token) :
    cutFrom first atLine (ts.map r.token)
      = ((cutFrom first atLine ts).1.map r.token,
          (cutFrom first atLine ts).2.map (Section.respell r)) := by
  induction ts generalizing first atLine with
  | nil => rfl
  | cons t ts ih =>
      rw [List.map_cons, cutFrom, cutFrom, startsLine_respell, ih]
      rcases hcut : cutFrom false (startsLine first t) ts with ⟨run, sections⟩
      cases run with
      | nil => rfl
      | cons colon body =>
          simp only [List.map_cons, isHeader_respell]
          split <;> rfl

theorem Section.tree_respell (s : Section) : (s.respell r).tree = s.tree.respell r := by
  simp [tree, respell, r.takeWhile_isBlank, r.dropWhile_isBlank, regionTrees_respell]

theorem domainTrees_respell (ts : List Token) :
    domainTrees (ts.map r.token) = (domainTrees ts).map (Tree.respell r) := by
  unfold domainTrees
  rw [r.takeWhile_isBlank, r.dropWhile_isBlank, List.map_append, Tree.map_respell_token]
  cases hsolid : ts.dropWhile Token.isBlank with
  | nil => rfl
  | cons t rest =>
      have hregion := regionTrees_respell r (t :: rest)
      rw [List.map_cons] at hregion
      simp [hregion]

/-- **The tree of respelled tokens is the respelled tree.** -/
theorem parseTokens_respell (ts : List Token) :
    parseTokens (ts.map r.token) = (parseTokens ts).respell r := by
  unfold parseTokens cutAtHeaders
  rw [cutFrom_respell]
  rcases cutFrom true true ts with ⟨run, sections⟩
  cases sections with
  | nil => simp [regionTrees_respell]
  | cons s rest => simp [domainTrees_respell, Section.tree_respell]

end CardQuery
