import CardQuery.Proofs.Parse.Formed
import CardQuery.Proofs.Parse.Lossless

/-!
# Problems as they are met

A reader who goes through a text from left to right meets each problem at a certain token: a
keyword that finds no operand before it, a parenthesis that closes nothing, a token that comes
where a value or an operand was due. `reports` lists the problems in this way, in one pass over the
tokens. It asks what is being gathered, how the innermost group stands and how many groups are
open, and never looks at a tree.

Main statements: the problems that are read off the tree of a text are the ones that are met, in
the same order and at the same places (`problemsFrom_parseTokens`), and there is one of them for
each defect of the tree (`syntaxErrors_parse`).
-/

set_option autoImplicit false

namespace CardQuery

open CardQuery.Tree (nodeCount widthOf)

/-! ## What is met -/

/-- Problems that all stand at one byte. -/
def placeAt (start : Nat) (ps : List Problem) : List PlacedProblem :=
  ps.map fun p => ⟨p, start⟩

/-- What is missing when a chain ends. -/
def Chain.missing : Chain → List Problem
  | .afterAnd _ _ => [.termAfter .and]
  | .afterOr _ => [.termAfter .or]
  | _ => []

/-- What is wrong with a keyword behind a chain. An `or` takes anything for its left operand, even
an `or` that lacks the right one. -/
def Chain.keywordProblems (c : Chain) (op : Connective) : List Problem :=
  c.missing ++
    match c, op with
    | .empty, _ | .afterOr _, .and => [.termBeforeKeyword]
    | _, _ => []

/-- What is wrong with a literal. -/
def literalProblems (k : LiteralKind) (t : Token) : List Problem :=
  if isClosedLiteral k t.text then [] else [.unterminated k]

namespace Nest

/-- What is wrong at a closing parenthesis. -/
def closingProblems (n : Nest) : List Problem :=
  match n.around with
  | [] => [.unmatchedParen]
  | _ :: _ => n.group.chain.missing

/-- What is wrong at the end of a region. -/
def finishProblems (n : Nest) : List Problem :=
  n.group.chain.missing ++ List.replicate n.around.length .missingParen

/-- What is wrong at a token that begins an item, when a token of the kind `next` comes after it. -/
def startProblems (n : Nest) (t : Token) (next : Option TokenKind) : List Problem :=
  match t.kind with
  | .keyword op => n.group.chain.keywordProblems op
  | .rightParen => n.closingProblems
  | .literal k => literalProblems k t
  | .unknown => [.unexpectedCharacter]
  | .comparison _ => [.missingArgument]
  | .minus => if next = some .leftParen then [.negatedClause] else []
  | .blank | .leftParen | .word => []

end Nest

namespace Draft

/-- What is wrong at a token that belongs to the item. -/
def extendProblems (d : Draft) (t : Token) : List Problem :=
  match d, t.kind with
  | .minus _, .literal k | .tag _ _ _, .literal k => literalProblems k t
  | _, _ => []

/-- What is missing when the item ends before a token of the kind `next`. -/
def finishProblems (d : Draft) (next : Option TokenKind) : List Problem :=
  match d with
  | .minus _ => if next = some .leftParen then [] else [.termAfterMinus]
  | .tag _ _ _ => [.missingValue]
  | _ => []

end Draft

/-- The problems met from the byte `start` on, when the item `d` is being gathered after the nest
`n`. -/
def reportsFrom (n : Nest) (d : Draft) (start : Nat) : List Token → List PlacedProblem
  | [] => placeAt start (d.finishProblems none ++ (n.step (d.finish none)).finishProblems)
  | t :: ts =>
    match d.extend t with
    | some d' => placeAt start (d.extendProblems t) ++ reportsFrom n d' (start + t.width) ts
    | none =>
      let n' := n.step (d.finish (some t.kind))
      placeAt start (d.finishProblems (some t.kind)
          ++ n'.startProblems t (ts.head?.map Token.kind))
        ++ reportsFrom n' (.start t) (start + t.width) ts

/-- The problems met in a region that starts at a byte. -/
def regionReports (start : Nat) : List Token → List PlacedProblem
  | [] => []
  | t :: ts =>
    placeAt start (Nest.start.startProblems t (ts.head?.map Token.kind))
      ++ reportsFrom .start (.start t) (start + t.width) ts

/-- The problems met in a region after blanks. -/
def bodyReports (start : Nat) (ts : List Token) : List PlacedProblem :=
  regionReports (start + tokensWidth (ts.takeWhile Token.isBlank)) (ts.dropWhile Token.isBlank)

/-- The problems met in sections. -/
def sectionReports (start : Nat) : List Section → List PlacedProblem
  | [] => []
  | s :: sections =>
    bodyReports (start + s.name.width + s.colon.width) s.body
      ++ sectionReports (start + tokensWidth s.tokens) sections

/-- The problems met in a text. -/
def reports (ts : List Token) : List PlacedProblem :=
  match cutAtHeaders ts with
  | (run, []) => regionReports 0 run
  | (run, sections) => bodyReports 0 run ++ sectionReports (tokensWidth run) sections

@[simp] theorem placeAt_nil (start : Nat) : placeAt start [] = [] := rfl

@[simp] theorem placeAt_append (start : Nat) (ps qs : List Problem) :
    placeAt start (ps ++ qs) = placeAt start ps ++ placeAt start qs := by
  simp [placeAt]

/-! ## Problems of nodes -/

@[simp] theorem problemsFrom_token (start : Nat) (t : Token) :
    problemsFrom start (.token t) = [] := by
  simp [problemsFrom]

theorem problemsFrom_node (start : Nat) (k : NodeKind) (cs : List Tree) :
    problemsFrom start (.node k cs)
      = placeAt start (openingProblem? k cs).toList ++ problemsOf start cs
        ++ placeAt (start + widthOf cs) (closingProblem? k cs).toList := by
  simp [problemsFrom, placeAt]

@[simp] theorem problemsOf_nil (start : Nat) : problemsOf start [] = [] := by
  simp [problemsOf]

@[simp] theorem problemsOf_cons (start : Nat) (c : Tree) (cs : List Tree) :
    problemsOf start (c :: cs) = problemsFrom start c ++ problemsOf (start + c.width) cs := by
  simp [problemsOf]

@[simp] theorem problemsOf_append (start : Nat) (xs ys : List Tree) :
    problemsOf start (xs ++ ys) = problemsOf start xs ++ problemsOf (start + widthOf xs) ys := by
  induction xs generalizing start with
  | nil => simp [widthOf]
  | cons x xs ih => simp [ih, widthOf, Nat.add_assoc]

@[simp] theorem problemsOf_map_token (start : Nat) (ts : List Token) :
    problemsOf start (ts.map .token) = [] := by
  induction ts generalizing start with
  | nil => simp
  | cons t ts ih => simp [ih]

theorem problemsFrom_flat (start : Nat) {k : NodeKind} (hk : k.isPlain = true) (ts : List Token) :
    problemsFrom start (.flat k ts) = [] := by
  cases k <;> cases hk <;>
    simp [Tree.flat, problemsFrom_node, openingProblem?, closingProblem?]

theorem problemsFrom_leaf (start : Nat) {k : NodeKind} (hk : k.isPlain = true) (t : Token) :
    problemsFrom start (.leaf k t) = [] :=
  problemsFrom_flat start hk [t]

/-- What is wrong with a single token in an error node. -/
theorem problemsFrom_leaf_error (start : Nat) {t : Token} {p : Problem}
    (hp : t.kind.problem? = some p) : problemsFrom start (.leaf .error t) = placeAt start [p] := by
  simp [Tree.leaf, problemsFrom_node, openingProblem?, closingProblem?, hp]

theorem problemsFrom_leaf_literal (start : Nat) (k : LiteralKind) (t : Token) :
    problemsFrom start (.leaf (.literal k) t) = placeAt start (literalProblems k t) := by
  by_cases hclosed : isClosedLiteral k t.text = true <;>
    simp [Tree.leaf, problemsFrom_node, openingProblem?, closingProblem?, literalProblems, hclosed]

/-- A binary node with two operands lacks nothing. -/
theorem problemsFrom_binary_two (start : Nat) (op : Connective) {cs : List Tree}
    (h : nodeCount cs = 2) : problemsFrom start (.binary op cs) = problemsOf start cs := by
  simp [Tree.binary, problemsFrom_node, openingProblem?, closingProblem?,
    Tree.length_filterMap_kind?, h]

/-- A binary node with a single operand lacks the right one. -/
theorem problemsFrom_binary_one (start : Nat) (op : Connective) {cs : List Tree}
    (h : nodeCount cs = 1) :
    problemsFrom start (.binary op cs)
      = problemsOf start cs ++ placeAt (start + widthOf cs) [.termAfter op] := by
  simp [Tree.binary, problemsFrom_node, openingProblem?, closingProblem?,
    Tree.length_filterMap_kind?, h]

/-- A clause has the problems of what is in it, and lacks its end when none of it closes it. -/
theorem problemsFrom_clause (start : Nat) (cs : List Tree) :
    problemsFrom start (.node .clause cs)
      = problemsOf start cs ++ placeAt (start + widthOf cs)
          (if cs.any Tree.isRightParen then [] else [.missingParen]) := by
  have hclosed : (Tree.node .clause cs).isClosed = cs.any Tree.isRightParen := rfl
  rw [problemsFrom_node]
  split <;> simp_all [openingProblem?, closingProblem?]

theorem problemsOf_closeOr (start : Nat) {outer run : List Tree}
    (houter : outer = [] ∨ nodeCount outer = 1) (hrun : nodeCount run = 1) :
    problemsOf start (closeOr outer run) = problemsOf start (outer ++ run) := by
  cases outer with
  | nil => rfl
  | cons x xs =>
      have htwo : nodeCount (x :: xs ++ run) = 2 := by
        rcases houter with hnil | hone
        · cases hnil
        · rw [Tree.nodeCount_append, hone, hrun]
      have hbinary := problemsFrom_binary_two start .or htwo
      rw [closeOr_of_ne_nil (by simp), problemsOf_cons, problemsOf_nil, List.append_nil]
      exact hbinary

/-! ## Problems of groups -/

theorem Chain.widthOf_trees (c : Chain) : widthOf c.trees = widthOf c.parts := by
  have hcloseOr : ∀ outer run : List Tree,
      widthOf (closeOr outer run) = widthOf (outer ++ run) := by
    intro outer run
    cases outer <;> simp [closeOr, Tree.binary, widthOf, Tree.width]
  cases c <;> simp [trees, parts, hcloseOr, Tree.binary, widthOf, Tree.width, Tree.widthOf_append]

/-- When a chain ends, only the operand that is due is missing. -/
theorem Chain.Counted.problemsOf_trees {c : Chain} (h : c.Counted) (start : Nat) :
    problemsOf start c.trees
      = problemsOf start c.parts ++ placeAt (start + widthOf c.parts) c.missing := by
  cases c with
  | empty => simp [Chain.trees, Chain.parts, Chain.missing]
  | operand outer run =>
      simp [Chain.trees, Chain.parts, Chain.missing, problemsOf_closeOr start h.1 h.2]
  | afterAnd outer run =>
      rw [Chain.trees, problemsOf_closeOr start h.1 rfl]
      simp [Chain.parts, Chain.missing, problemsFrom_binary_one _ _ h.2, Tree.widthOf_append,
        Nat.add_assoc]
  | afterOr outer =>
      simp [Chain.trees, Chain.parts, Chain.missing, problemsFrom_binary_one _ _ h]

theorem Chain.missing_addTerm (g : Group) (tree : Tree) : (g.addTerm tree).chain.missing = [] := by
  rcases g with ⟨settled, chain⟩
  cases chain <;> rfl

theorem Group.widthOf_trees (g : Group) : widthOf g.trees = widthOf g.parts := by
  rw [trees, parts, Tree.widthOf_append, Tree.widthOf_append, Chain.widthOf_trees]

theorem Group.widthOf_addTerm (g : Group) (tree : Tree) :
    widthOf (g.addTerm tree).parts = widthOf g.parts + tree.width := by
  rcases g with ⟨settled, chain⟩
  cases chain <;>
    simp [addTerm, parts, Chain.parts, Tree.binary, widthOf, Tree.width, Tree.widthOf_append,
      Nat.add_assoc]

namespace Group.Formed

variable {g : Group} (h : g.Formed) (start : Nat)
include h

theorem problemsOf_trees :
    problemsOf start g.trees
      = problemsOf start g.parts ++ placeAt (start + widthOf g.parts) g.chain.missing := by
  rw [Group.trees, problemsOf_append, h.counted.problemsOf_trees, Group.parts, problemsOf_append,
    Tree.widthOf_append, List.append_assoc, Nat.add_assoc]

theorem problemsOf_addTerm {k : NodeKind} {cs : List Tree} :
    problemsOf start (g.addTerm (.node k cs)).parts
      = problemsOf start g.parts ++ problemsFrom (start + widthOf g.parts) (.node k cs) := by
  have hcounted := h.counted
  rcases g with ⟨settled, chain⟩
  cases chain with
  | empty => simp [Group.addTerm, Group.parts, Chain.parts]
  | operand outer run | afterAnd outer run =>
      have htwo : nodeCount (run ++ [.node k cs]) = 2 := by simp [hcounted.2]
      simp [Group.addTerm, Group.parts, Chain.parts, problemsFrom_binary_two _ _ htwo,
        Tree.widthOf_append, Nat.add_assoc]
  | afterOr outer =>
      simp [Group.addTerm, Group.parts, Chain.parts, Tree.widthOf_append, Nat.add_assoc]

theorem problemsOf_addKeyword {op : Connective} {t : Token} (ht : t.kind = .keyword op) :
    problemsOf start (g.addKeyword op t).parts
      = problemsOf start g.parts
        ++ placeAt (start + widthOf g.parts) (g.chain.keywordProblems op) := by
  have hcounted := h.counted
  have herror : ∀ start,
      problemsFrom start (.leaf .error t) = placeAt start [.termBeforeKeyword] :=
    fun start => problemsFrom_leaf_error start (by rw [ht]; rfl)
  rcases g with ⟨settled, chain⟩
  cases chain with
  | empty =>
      cases op <;>
        simp [Group.addKeyword, Group.addAnd, Group.addOr, Group.parts, Chain.parts,
          Chain.keywordProblems, Chain.missing, herror]
  | operand outer run =>
      obtain ⟨houter, hrun⟩ := hcounted
      have hclose := fun start => problemsOf_closeOr start houter hrun
      cases op <;>
        simp [Group.addKeyword, Group.addAnd, Group.addOr, Group.parts, Chain.parts,
          Chain.keywordProblems, Chain.missing, hclose]
  | afterAnd outer run =>
      obtain ⟨houter, hrun⟩ := hcounted
      have hone : nodeCount [Tree.binary .and run] = 1 := rfl
      have hclose := fun start => problemsOf_closeOr start houter hone
      have hmissing := fun start => problemsFrom_binary_one start .and hrun
      cases op <;>
        simp [Group.addKeyword, Group.addAnd, Group.addOr, Group.parts, Chain.parts,
          Chain.keywordProblems, Chain.missing, hclose, hmissing, Tree.widthOf_append,
          Nat.add_assoc]
  | afterOr outer =>
      have hmissing := fun start => problemsFrom_binary_one start .or hcounted
      have hwidth : (Tree.binary .or outer).width = widthOf outer := by
        simp [Tree.binary, Tree.width]
      cases op <;>
        simp [Group.addKeyword, Group.addAnd, Group.addOr, Group.parts, Chain.parts,
          Chain.keywordProblems, Chain.missing, hmissing, herror, hwidth, Tree.widthOf_append,
          Nat.add_assoc, placeAt]

end Group.Formed

/-! ## Problems of a nest -/

/-- The problems met with an item that starts at a byte. -/
def Item.problems (n : Nest) (start : Nat) : Item → List PlacedProblem
  | .blank _ | .opening _ => []
  | .keyword op _ => placeAt start (n.group.chain.keywordProblems op)
  | .closing _ => placeAt start n.closingProblems
  | .term tree => problemsFrom start tree

namespace Nest

/-- The trees of a nest that are complete, from the outermost group on. -/
def parts (n : Nest) : List Tree :=
  n.around.reverse.flatMap Group.parts ++ n.group.parts

theorem widthOf_parts (n : Nest) : widthOf n.parts = tokensWidth n.tokens := by
  have hgroup : ∀ g : Group, tokensWidth g.tokens = widthOf g.parts := by
    intro g
    rw [Group.tokens, Tree.tokensWidth_tokensOf, Group.widthOf_trees]
  have hgroups : ∀ gs : List Group,
      tokensWidth (gs.flatMap Group.tokens) = widthOf (gs.flatMap Group.parts) := by
    intro gs
    induction gs with
    | nil => simp [tokensWidth, widthOf]
    | cons g gs ih => simp [tokensWidth_append, Tree.widthOf_append, hgroup, ih]
  rw [tokens, finish, tokensOf_finishFrom, tokensWidth_append, parts, Tree.widthOf_append,
    hgroups, hgroup]

/-- One more item brings the problems that are met with it. -/
theorem problemsOf_step {n : Nest} {i : Item} (h : n.Formed) (hi : i.Proper) (start : Nat) :
    problemsOf start (n.step i).parts
      = problemsOf start n.parts ++ i.problems n (start + tokensWidth n.tokens) := by
  obtain ⟨hg, haround⟩ := h
  rw [← widthOf_parts]
  rcases n with ⟨g, around⟩
  cases i with
  | blank t =>
      have hparts : (g.addBlank t).parts = g.parts ++ [.token t] := by
        rcases g with ⟨settled, chain⟩
        cases chain <;> simp [Group.addBlank, Group.parts, Chain.parts]
      simp [step, parts, hparts, Item.problems]
  | keyword op t =>
      simp [step, parts, hg.problemsOf_addKeyword _ hi, Item.problems, Tree.widthOf_append,
        Nat.add_assoc]
  | opening t =>
      simp [step, parts, Group.ofTrees, Group.parts, Chain.parts, Item.problems]
  | term tree =>
      obtain ⟨k, cs, rfl, -⟩ := hi
      simp [step, parts, hg.problemsOf_addTerm, Item.problems, Tree.widthOf_append, Nat.add_assoc]
  | closing t =>
      have ht : t.kind = .rightParen := hi
      cases around with
      | nil =>
          have herror := problemsFrom_leaf_error (start + widthOf (Nest.mk g []).parts) (t := t)
            (by rw [ht]; rfl : t.kind.problem? = some .unmatchedParen)
          rw [Item.problems, closingProblems, ← herror]
          simpa [step, parts, Tree.leaf] using
            @Group.Formed.problemsOf_addTerm g hg start .error [.token t]
      | cons outer around =>
          have houter := (List.forall_mem_cons.1 haround).1
          have hparen : (g.trees ++ [Tree.token t]).any Tree.isRightParen = true := by
            simp [Tree.isRightParen_token, ht]
          simp only [step, parts, List.reverse_cons, List.flatMap_append, List.flatMap_cons,
            List.flatMap_nil, List.append_nil, problemsOf_append, houter.problemsOf_addTerm,
            problemsFrom_clause, hparen, if_true, placeAt_nil, problemsOf_cons, problemsOf_nil,
            problemsFrom_token, hg.problemsOf_trees, Item.problems, closingProblems,
            Tree.widthOf_append, List.append_assoc, Nat.add_assoc]

/-- At its end a region lacks an operand of the innermost group, and the end of every group but
the outermost. -/
theorem problemsOf_finishFrom {g : Group} {around : List Group} (hg : g.Formed)
    (haround : ∀ x ∈ around, x.Formed) (start : Nat) :
    problemsOf start (finishFrom g around)
      = problemsOf start (Nest.mk g around).parts
        ++ placeAt (start + widthOf (Nest.mk g around).parts)
          (Nest.mk g around).finishProblems := by
  induction around generalizing g with
  | nil => simp [finishFrom, parts, finishProblems, hg.problemsOf_trees]
  | cons outer around ih =>
      obtain ⟨houter, hrest⟩ := List.forall_mem_cons.1 haround
      have hclause := houter.addTerm (formed_clause hg.trees.1)
      have hwidth : (Tree.node .clause g.trees).width = widthOf g.parts := by
        rw [Tree.width, Group.widthOf_trees]
      -- behind a clause no operand is due, so the groups around lack only their ends
      rw [finishFrom, ih hclause hrest]
      simp [parts, finishProblems, houter.problemsOf_addTerm, problemsFrom_clause, hg.trees.2,
        hg.problemsOf_trees, Chain.missing_addTerm, Group.widthOf_addTerm, Group.widthOf_trees,
        hwidth, Tree.widthOf_append, List.replicate_succ, Nat.add_assoc, placeAt]

theorem problemsOf_finish {n : Nest} (h : n.Formed) (start : Nat) :
    problemsOf start n.finish
      = problemsOf start n.parts
        ++ placeAt (start + tokensWidth n.tokens) n.finishProblems := by
  rw [← widthOf_parts]
  exact problemsOf_finishFrom h.1 h.2 start

end Nest

/-! ## Problems of the item being gathered -/

namespace Tree

theorem kind?_leaf (k : NodeKind) (t : Token) : (leaf k t).kind? = some k := rfl

theorem kind?_flat (k : NodeKind) (ts : List Token) : (flat k ts).kind? = some k := rfl

theorem width_leaf (k : NodeKind) (t : Token) : (leaf k t).width = t.width := by
  simp [leaf, width, widthOf]

end Tree

namespace Draft

/-- What is known about a draft that was gathered from the tokens `w`. -/
structure Sound (w : List Token) (d : Draft) : Prop where
  fits : d.Fits w
  proper : d.Proper
  formed : d.Formed

theorem sound_start {t : Token} (ht : t.IsLexeme) : (start t).Sound [t] :=
  ⟨fits_start t, proper_start t, formed_start ht⟩

theorem Sound.extend {d d' : Draft} {w : List Token} {t : Token} (h : d.Sound w)
    (ht : t.IsLexeme) (hext : d.extend t = some d') : d'.Sound (w ++ [t]) :=
  ⟨fits_extend h.fits hext, proper_extend hext, formed_extend ht hext⟩

/-- The problems met so far with an item that starts at a byte, when a token of the kind `next`
comes after it. -/
def problems (n : Nest) (start : Nat) (next : Option TokenKind) : Draft → List PlacedProblem
  | .complete i => i.problems n start
  | .minus _ => placeAt start (if next = some .leftParen then [.negatedClause] else [])
  | .stray _ => placeAt start [.missingArgument]
  | .word _ _ | .tag _ _ _ | .value _ _ _ _ => []

theorem problems_start (n : Nest) (start : Nat) (t : Token) (next : Option TokenKind) :
    (Draft.start t).problems n start next = placeAt start (n.startProblems t next) := by
  unfold Draft.start Nest.startProblems
  cases hk : t.kind with
  | literal k => exact problemsFrom_leaf_literal start k t
  | unknown => exact problemsFrom_leaf_error start (by rw [hk]; rfl)
  | _ => simp [problems, Item.problems]

/-- The problems of a tag are those of its parts, and the part that it lacks. -/
theorem problems_tagOf (n : Nest) (start : Nat) (sign : Option Token) (parts : List Tree) :
    (tagOf sign parts).problems n start
      = problemsOf (start + tokensWidth sign.toList) parts
        ++ placeAt (start + tokensWidth (tagOf sign parts).tokens)
          (closingProblem? .tag (sign.toList.map (.leaf .sign) ++ parts)).toList := by
  have hwidth : tokensWidth (Tree.tokensOf parts) = widthOf parts := Tree.tokensWidth_tokensOf parts
  cases sign <;>
    simp (disch := decide) [tagOf, Item.problems, problemsFrom_node, openingProblem?,
      problemsFrom_leaf, tokensWidth, widthOf, Tree.width_leaf, hwidth, Item.tokens]

theorem problems_extend {d d' : Draft} {t : Token} (ht : d.extend t = some d') (n : Nest)
    (start : Nat) (next : Option TokenKind) :
    d'.problems n start next
      = d.problems n start (some t.kind)
        ++ placeAt (start + tokensWidth d.tokens) (d.extendProblems t) := by
  cases d with
  | complete i => cases ht
  | minus m =>
      simp only [extend] at ht
      split at ht <;> cases ht
      · next hk => simp [problems, extendProblems, hk]
      · next k hk =>
          simp [problems, problems_tagOf, problemsFrom_leaf_literal, closingProblem?,
            Tree.kind?_leaf, extendProblems, hk, tokens]
  | word sign a =>
      simp only [extend] at ht
      split at ht <;> cases ht
      simp [problems, extendProblems]
  | tag sign a op =>
      simp only [extend] at ht
      split at ht <;> cases ht
      · next k hk =>
          cases sign <;>
            simp (disch := decide) [problems, problems_tagOf, problemsFrom_leaf,
              problemsFrom_leaf_literal, closingProblem?, List.filterMap_cons, Tree.kind?_leaf,
              NodeKind.isTagValue, extendProblems, hk, tokens, tokensWidth, Tree.width_leaf,
              Nat.add_assoc]
      · next c hk =>
          cases sign <;>
            simp (disch := decide) [problems, problems_tagOf, problemsFrom_leaf, closingProblem?,
              List.filterMap_cons, Tree.kind?_leaf, NodeKind.isTagValue, extendProblems, hk]
      · next hk => simp [problems, extendProblems, hk]
      · next hk => simp [problems, extendProblems, hk]
  | value sign a op words =>
      simp only [extend] at ht
      split at ht <;> cases ht <;> simp [problems, extendProblems]
  | stray ts =>
      simp only [extend] at ht
      split at ht <;> cases ht <;> simp [problems, extendProblems]

theorem problems_finish {d : Draft} {w : List Token} (h : d.Fits w) (n : Nest) (start : Nat)
    (next : Option TokenKind) :
    (d.finish next).problems n start
      = d.problems n start next
        ++ placeAt (start + tokensWidth d.tokens) (d.finishProblems next) := by
  cases d with
  | complete i => simp [finish, problems, finishProblems]
  | minus m =>
      have hp : m.kind.problem? = some .negatedClause := by rw [h.2]; rfl
      by_cases hnext : next = some .leftParen
      · simp [finish, problems, Item.problems, finishProblems, hnext, problemsFrom_leaf_error _ hp]
      · simp [finish, problems, finishProblems, hnext, problems_tagOf, closingProblem?,
          Tree.kind?_leaf, tokens]
  | word sign a =>
      cases sign with
      | none =>
          simp (disch := decide) [finish, problems, Item.problems, finishProblems,
            problemsFrom_leaf]
      | some m =>
          simp (disch := decide) [finish, problems, finishProblems, problems_tagOf,
            problemsFrom_leaf, closingProblem?, List.filterMap_cons, Tree.kind?_leaf]
  | tag sign a op =>
      cases sign <;>
        simp (disch := decide) [finish, problems, finishProblems, problems_tagOf,
          problemsFrom_leaf, closingProblem?, List.filterMap_cons, Tree.kind?_leaf,
          NodeKind.isTagValue, tokens]
  | value sign a op words =>
      cases sign <;>
        simp (disch := decide) [finish, problems, finishProblems, problems_tagOf,
          problemsFrom_leaf, problemsFrom_flat, closingProblem?, List.filterMap_cons,
          Tree.kind?_leaf, Tree.kind?_flat, NodeKind.isTagValue]
  | stray ts =>
      obtain ⟨c, t, rest, rfl, hk⟩ := h
      simp [finish, problems, Item.problems, finishProblems, Tree.flat, problemsFrom_node,
        openingProblem?, closingProblem?, hk, TokenKind.problem?]

end Draft

/-! ## Problems of regions and texts -/

theorem Draft.tokensWidth_extend {d d' : Draft} {t : Token} (h : d.extend t = some d') :
    tokensWidth d'.tokens = tokensWidth d.tokens + t.width := by
  rw [← width_tokensText, Draft.tokensText_extend h, Text.width_append, width_tokensText,
    Token.width]

/-- Reading on brings the problems that are met from there on. -/
theorem problemsOf_run {n : Nest} {d : Draft} {w ts : List Token} (hn : n.Formed)
    (hd : d.Sound w) (hts : ∀ t ∈ ts, t.IsLexeme) (start : Nat) :
    problemsOf start ((d.run ts).foldl Nest.step n).finish
      = problemsOf start n.parts
        ++ d.problems n (start + tokensWidth n.tokens) (ts.head?.map Token.kind)
        ++ reportsFrom n d (start + tokensWidth n.tokens + tokensWidth d.tokens) ts := by
  induction ts generalizing n d w with
  | nil =>
      have hproper := Draft.proper_finish hd.proper none
      have hformed := Draft.formed_finish hd.fits hd.formed none
      have hfinish := Nest.problemsOf_finish (Nest.formed_step hn hproper hformed) start
      rw [Nest.problemsOf_step hn hproper, Draft.problems_finish hd.fits, Nest.tokens_step,
        Draft.tokens_finish, tokensWidth_append, ← Nat.add_assoc] at hfinish
      simpa [Draft.run, reportsFrom] using hfinish
  | cons t ts ih =>
      obtain ⟨ht, hrest⟩ := List.forall_mem_cons.1 hts
      rw [Draft.run, reportsFrom]
      cases hext : d.extend t with
      | some d' =>
          have hmore := ih hn (hd.extend ht hext) hrest
          rw [Draft.problems_extend hext, Draft.tokensWidth_extend hext] at hmore
          simpa [Nat.add_assoc] using hmore
      | none =>
          have hproper := Draft.proper_finish hd.proper (some t.kind)
          have hformed := Draft.formed_finish hd.fits hd.formed (some t.kind)
          have hmore := ih (Nest.formed_step hn hproper hformed) (Draft.sound_start ht) hrest
          rw [Nest.problemsOf_step hn hproper, Draft.problems_finish hd.fits,
            Draft.problems_start, Nest.tokens_step, Draft.tokens_finish, Draft.tokens_start,
            tokensWidth_append] at hmore
          simpa [tokensWidth, Nat.add_assoc] using hmore

/-- **The problems of a region are the ones that are met in it.** -/
theorem problemsOf_regionTrees {ts : List Token} (hts : ∀ t ∈ ts, t.IsLexeme) (start : Nat) :
    problemsOf start (regionTrees ts) = regionReports start ts := by
  cases ts with
  | nil => exact problemsOf_nil start
  | cons t ts =>
      obtain ⟨ht, hrest⟩ := List.forall_mem_cons.1 hts
      have hrun := problemsOf_run Nest.formed_start (Draft.sound_start ht) hrest start
      have hparts : Nest.start.parts = [] := rfl
      have hempty : tokensWidth Nest.start.tokens = 0 := rfl
      rw [hparts, hempty, problemsOf_nil, Nat.add_zero, Draft.problems_start,
        Draft.tokens_start] at hrun
      simpa [tokensWidth, regionReports, regionTrees, items] using hrun

/-- Nothing is wrong with an outer node itself. -/
theorem problemsFrom_outer (start : Nat) {k : NodeKind} (hk : k.isOuter = true) (cs : List Tree) :
    problemsFrom start (.node k cs) = problemsOf start cs := by
  cases k <;> cases hk <;> simp [problemsFrom_node, openingProblem?, closingProblem?]

theorem widthOf_map_token (ts : List Token) : widthOf (ts.map .token) = tokensWidth ts := by
  rw [← Tree.tokensWidth_tokensOf, Tree.tokensOf_map_token]

theorem problemsOf_domainTrees {ts : List Token} (hts : ∀ t ∈ ts, t.IsLexeme) (start : Nat) :
    problemsOf start (domainTrees ts) = bodyReports start ts := by
  have hregion := problemsOf_regionTrees (isLexeme_of_dropWhile hts)
    (start + tokensWidth (ts.takeWhile Token.isBlank))
  rw [bodyReports, ← hregion]
  unfold domainTrees
  split
  · next hsolid => simp [hsolid, regionTrees_nil]
  · simp (disch := decide) [problemsFrom_outer, widthOf_map_token]

theorem widthOf_domainTrees (ts : List Token) : widthOf (domainTrees ts) = tokensWidth ts := by
  rw [← Tree.tokensWidth_tokensOf, ← width_tokensText, tokensText_domainTrees, width_tokensText]

theorem Section.problemsFrom_tree {s : Section} (hs : ∀ t ∈ s.tokens, t.IsLexeme) (start : Nat) :
    problemsFrom start s.tree = bodyReports (start + s.name.width + s.colon.width) s.body := by
  rw [bodyReports, ← problemsOf_regionTrees (isLexeme_of_body hs)]
  simp (disch := decide) [tree, Tree.leaf, problemsFrom_outer, widthOf_map_token, Tree.width,
    widthOf, Nat.add_assoc]

/-- A tree that has the text of some tokens has their width. -/
theorem Tree.width_of_text {t : Tree} {ts : List Token} (h : t.text = tokensText ts) :
    t.width = tokensWidth ts := by
  rw [← tokensWidth_tokens, ← width_tokensText, ← width_tokensText]
  exact congrArg Text.width h

theorem problemsOf_sections {sections : List Section}
    (h : ∀ s ∈ sections, ∀ t ∈ s.tokens, t.IsLexeme) (start : Nat) :
    problemsOf start (sections.map Section.tree) = sectionReports start sections := by
  induction sections generalizing start with
  | nil => exact problemsOf_nil start
  | cons s sections ih =>
      obtain ⟨hs, hrest⟩ := List.forall_mem_cons.1 h
      rw [List.map_cons, problemsOf_cons, s.problemsFrom_tree hs, ih hrest,
        Tree.width_of_text s.text_tree, sectionReports]

/-- **The problems of a text are the ones that are met in it.** -/
theorem problemsFrom_parseTokens {ts : List Token} (hts : ∀ t ∈ ts, t.IsLexeme) :
    problemsFrom 0 (parseTokens ts) = reports ts := by
  rcases heq : cutAtHeaders ts with ⟨run, sections⟩
  obtain ⟨hrun, hsections⟩ := isLexeme_of_cut hts heq
  rw [parseTokens, reports, heq]
  cases sections with
  | nil =>
      show problemsFrom 0 (.node .program (regionTrees run)) = regionReports 0 run
      rw [problemsFrom_outer 0 rfl, problemsOf_regionTrees hrun]
  | cons s sections =>
      show problemsFrom 0 (.node .program (domainTrees run ++ (s :: sections).map Section.tree))
        = bodyReports 0 run ++ sectionReports (tokensWidth run) (s :: sections)
      rw [problemsFrom_outer 0 rfl, problemsOf_append, problemsOf_domainTrees hrun,
        problemsOf_sections hsections, widthOf_domainTrees, Nat.zero_add]

example : reports (tokenize "a and and".toList)
    = [⟨.termAfter .and, 6⟩, ⟨.termAfter .and, 9⟩] := by
  decide +kernel

/-- Where a problem is shown depends on the bytes of the tokens alone. -/
theorem spanAt_map_span {ps qs : List PlacedToken}
    (h : ps.map PlacedToken.span = qs.map PlacedToken.span) : spanAt ps = spanAt qs := by
  funext start
  unfold spanAt
  induction ps generalizing qs with
  | nil =>
      obtain rfl : qs = [] := by simpa using h.symm
      rfl
  | cons p ps ih =>
      cases qs with
      | nil => cases h
      | cons q qs =>
          obtain ⟨hspan, hrest⟩ := List.cons.inj h
          have hstart : p.start = q.start := congrArg Span.start hspan
          by_cases hfound : q.start = start
          · simpa [hstart, hfound] using hspan
          · simpa [hstart, hfound] using ih hrest

/-- **Each defect of the tree of a text is one syntax error**, and nothing else is. The errors are
the problems that a reader meets in the text, in order, each shown at the token that it was met
at. -/
theorem syntaxErrors_parse (t : Text) :
    (syntaxErrors (parse t)).length = (parse t).defects
      ∧ (syntaxErrors (parse t) = [] ↔ (parse t).defects = 0)
      ∧ syntaxErrors (parse t) = (reports (tokenize t)).map
          (fun p => ⟨p.problem, spanAt (placeTokens 0 (tokenize t)) p.start⟩) := by
  have hlex : ∀ x ∈ tokenize t, x.IsLexeme := fun x hx => isLexeme_of_mem_tokenize hx
  have hcount : (syntaxErrors (parse t)).length = (parse t).defects := by
    rw [syntaxErrors, List.length_map]
    exact length_problemsFrom (outerOrFormed_parseTokens hlex) 0
  refine ⟨hcount, ?_, ?_⟩
  · rw [← hcount, List.length_eq_zero_iff]
  · have hplaces := congrArg (List.map Prod.snd)
      (placeTokens_map_text (map_text_tokens_parseTokens (tokenize t)) 0)
    rw [List.map_map, List.map_map] at hplaces
    rw [syntaxErrors, parse, problemsFrom_parseTokens hlex, spanAt_map_span hplaces]

end CardQuery
