import CardQuery.Editor.Highlight
import CardQuery.Proofs.Cursor.Address
import CardQuery.Proofs.Parse.Report
import CardQuery.Proofs.Tree.Respelling
import CardQuery.Tree.Kind

/-!
# What is shown of a text that is spelled anew

What is wrong with a tree is told by the kinds of its nodes and tokens and by which literals are
closed, so a respelling keeps all problems in their order. When it also keeps the width of every
token, everything stands where it stood, and what is shown of it is shown at the same bytes.

Main statements: `map_mark_focuses_respell`, `syntaxErrors_respell`, `highlights_respell`.
-/

set_option autoImplicit false

namespace CardQuery

/-! ## Problems -/

section Problems

variable (r : Respelling)

theorem filterMap_kind?_respell (cs : List Tree) :
    (cs.map (Tree.respell r)).filterMap Tree.kind? = cs.filterMap Tree.kind? := by
  rw [List.filterMap_map]
  exact congrArg (fun f => cs.filterMap f) (funext fun c => c.kind?_respell r)

theorem isClosed_respell (t : Tree) : (t.respell r).isClosed = t.isClosed := by
  simp [Tree.isClosed, Tree.children_respell, Function.comp_def]

theorem openingProblem?_respell (k : NodeKind) (cs : List Tree) :
    openingProblem? k (cs.map (Tree.respell r)) = openingProblem? k cs := by
  unfold openingProblem?
  rw [Tree.tokensOf_respell, List.head?_map]
  cases (Tree.tokensOf cs).head? with
  | none => rfl
  | some t => cases k <;> simp [Respelling.token, r.isClosedLiteral_spell]

theorem closingProblem?_respell (k : NodeKind) (cs : List Tree) :
    closingProblem? k (cs.map (Tree.respell r)) = closingProblem? k cs := by
  have hclosed := isClosed_respell r (.node k cs)
  rw [Tree.respell_node] at hclosed
  unfold closingProblem?
  rw [filterMap_kind?_respell, hclosed]

mutual

/-- A respelling keeps what is wrong with a tree. -/
theorem map_problem_respell (start start' : Nat) (t : Tree) :
    (problemsFrom start' (t.respell r)).map PlacedProblem.problem
      = (problemsFrom start t).map PlacedProblem.problem := by
  cases t with
  | token t => simp
  | node k cs =>
      rw [Tree.respell_node, problemsFrom_node, problemsFrom_node, openingProblem?_respell,
        closingProblem?_respell]
      simp [placeAt, mapOf_problem_respell start start' cs, Function.comp_def]

theorem mapOf_problem_respell (start start' : Nat) (cs : List Tree) :
    (problemsOf start' (cs.map (Tree.respell r))).map PlacedProblem.problem
      = (problemsOf start cs).map PlacedProblem.problem := by
  cases cs with
  | nil => simp
  | cons c cs =>
      rw [List.map_cons, problemsOf_cons, problemsOf_cons, List.map_append, List.map_append,
        map_problem_respell start start' c,
        mapOf_problem_respell (start + c.width) (start' + (c.respell r).width) cs]

end

end Problems

/-! ## Places -/

section Above

variable (r : Respelling)

/-- A step down with the trees beside it spelled anew. -/
def Step.respell (s : Step) : Step :=
  ⟨s.kind, s.start, s.before.map (Tree.respell r), s.after.map (Tree.respell r)⟩

namespace Focus

/-- A place with the tree around it spelled anew. -/
def respell (f : Focus) : Focus :=
  ⟨f.tree.respell r, f.start, f.above.map (Step.respell r)⟩

theorem up?_respell (f : Focus) : (f.respell r).up? = f.up?.map (respell r) := by
  rcases f with ⟨t, start, above⟩
  cases above with
  | nil => rfl
  | cons s above => simp [respell, up?, Step.respell, Step.fill]

@[simp] theorem parentKind?_respell (f : Focus) :
    (f.respell r).parentKind? = f.parentKind? := by
  simp [parentKind?, respell, Function.comp_def, Step.respell]

@[simp] theorem path_respell (f : Focus) : (f.respell r).path = f.path := by
  simp [path, respell, Function.comp_def, Step.respell]

end Focus

/-- How the word of an argument is shown depends on which words spell arguments. -/
theorem argumentHighlight_respell (f : Focus) {name name' : Text}
    (hname : isArgument name' = isArgument name) :
    argumentHighlight (f.respell r) name' = argumentHighlight f name := by
  unfold argumentHighlight
  rw [Focus.up?_respell]
  cases f.up? with
  | none => rfl
  | some parent => simp [Focus.respell, Tree.operator?, hname]

theorem highlightTag?_respell (f : Focus) (t : Token) :
    highlightTag? (f.respell r) (r.token t) = highlightTag? f t := by
  unfold highlightTag?
  rw [Focus.parentKind?_respell, r.kind_token]
  by_cases hword : t.kind = .word
  · have hname : isArgument (r.token t).text = isArgument t.text := by
      rw [Respelling.token, hword, r.isArgument_spell]
    simp only [Focus.up?_respell, Option.map_map, Function.comp_def,
      argumentHighlight_respell r _ hname]
  · split
    · rfl
    · split <;> simp_all

end Above

/-- The kind of a tree, token or node. -/
def Tree.label : Tree → Kind
  | .token t => .token t.kind
  | .node k _ => .node k

/-- Where a place stands and what stands there, without any text. -/
structure Mark where
  /-- The numbers of the children that lead to it, the last first. -/
  path : List Nat
  kind : Kind
  span : Span
  deriving DecidableEq, Repr

/-- What can be told of a place without its text. -/
def Focus.mark (f : Focus) : Mark :=
  ⟨f.path, f.tree.label, f.span⟩

/-- Whether a respelling leaves every token as wide as it is. -/
def Respelling.KeepsWidth (r : Respelling) : Prop :=
  ∀ k t, (r.spell k t).width = t.width

section Width

variable {r : Respelling} (hr : r.KeepsWidth)
include hr

theorem Respelling.KeepsWidth.width_token (t : Token) : (r.token t).width = t.width :=
  hr t.kind t.text

theorem tokensWidth_respell (ts : List Token) : tokensWidth (ts.map r.token) = tokensWidth ts := by
  induction ts with
  | nil => rfl
  | cons t ts ih => rw [List.map_cons, tokensWidth, tokensWidth, hr.width_token, ih]

theorem placeTokens_respell (start : Nat) (ts : List Token) :
    placeTokens start (ts.map r.token)
      = (placeTokens start ts).map fun p => ⟨r.token p.token, p.start⟩ := by
  induction ts generalizing start with
  | nil => rfl
  | cons t ts ih => simp [placeTokens, hr.width_token, ih]

namespace Tree

theorem width_respell (t : Tree) : (t.respell r).width = t.width := by
  rw [← tokensWidth_tokens, ← tokensWidth_tokens, tokens_respell, tokensWidth_respell hr]

theorem widthOf_respell (cs : List Tree) : widthOf (cs.map (respell r)) = widthOf cs := by
  rw [← tokensWidth_tokensOf, ← tokensWidth_tokensOf, tokensOf_respell, tokensWidth_respell hr]

end Tree

mutual

theorem problemsFrom_respell (start : Nat) (t : Tree) :
    problemsFrom start (t.respell r) = problemsFrom start t := by
  cases t with
  | token t => simp
  | node k cs =>
      rw [Tree.respell_node, problemsFrom_node, problemsFrom_node, openingProblem?_respell,
        closingProblem?_respell, problemsOf_respell start cs, Tree.widthOf_respell hr]

theorem problemsOf_respell (start : Nat) (cs : List Tree) :
    problemsOf start (cs.map (Tree.respell r)) = problemsOf start cs := by
  cases cs with
  | nil => simp
  | cons c cs =>
      rw [List.map_cons, problemsOf_cons, problemsOf_cons, problemsFrom_respell start c,
        Tree.width_respell hr, problemsOf_respell (start + c.width) cs]

end

theorem spanAt_respell (start at' : Nat) (ts : List Token) :
    spanAt (placeTokens start (ts.map r.token)) at' = spanAt (placeTokens start ts) at' := by
  unfold spanAt
  rw [placeTokens_respell hr, List.find?_map]
  simp only [Function.comp_def]
  cases (placeTokens start ts).find? fun p => p.start = at' with
  | none => rfl
  | some p => simp [PlacedToken.span, hr.width_token]

/-- Syntax errors stay where they are. -/
theorem syntaxErrors_respell (t : Tree) : syntaxErrors (t.respell r) = syntaxErrors t := by
  unfold syntaxErrors
  rw [problemsFrom_respell hr, Tree.tokens_respell]
  exact List.map_congr_left fun p _ => by rw [spanAt_respell hr]

namespace Focus

theorem span_respell (f : Focus) : (f.respell r).span = f.span := by
  simp [span, stop, respell, Tree.width_respell hr]

theorem trimmedSpan_respell (f : Focus) : (f.respell r).trimmedSpan = f.trimmedSpan := by
  unfold trimmedSpan
  simp only [respell, Tree.tokens_respell, placeTokens_respell hr, List.filter_map,
    List.head?_map, List.getLast?_map, Function.comp_def, Respelling.isBlank_token]
  generalize (placeTokens f.start f.tree.tokens).filter (fun p => !p.token.isBlank) = solid
  cases solid.head? <;> cases solid.getLast? <;> simp [PlacedToken.span, hr.width_token]

theorem mark_respell (f : Focus) : (f.respell r).mark = f.mark := by
  rcases f with ⟨t, start, above⟩
  have hlabel : (t.respell r).label = t.label := by cases t <;> simp [Tree.label]
  have hspan := span_respell hr ⟨t, start, above⟩
  have hpath := path_respell r ⟨t, start, above⟩
  unfold mark
  rw [hspan, hpath]
  exact congrArg (Mark.mk _ · _) hlabel

theorem childrenFrom_respell (above : List Step) (k : NodeKind) (nodeStart : Nat)
    (before : List Tree) (start : Nat) (cs : List Tree) :
    childrenFrom (above.map (Step.respell r)) k nodeStart (before.map (Tree.respell r)) start
        (cs.map (Tree.respell r))
      = (childrenFrom above k nodeStart before start cs).map (respell r) := by
  induction cs generalizing before start with
  | nil => rfl
  | cons c cs ih =>
      have hrest := ih (before ++ [c]) (start + c.width)
      rw [List.map_append] at hrest
      rw [List.map_cons, childrenFrom, childrenFrom, List.map_cons, ← hrest,
        Tree.width_respell hr]
      rfl

theorem children_respell (f : Focus) : (f.respell r).children = f.children.map (respell r) := by
  rcases f with ⟨t, start, above⟩
  cases t with
  | token t => simp [children, respell]
  | node k cs =>
      have hcs := childrenFrom_respell hr above k start [] start cs
      simpa [children, respell] using hcs

theorem child?_respell (k : NodeKind) (f : Focus) :
    (f.respell r).child? k = (f.child? k).map (respell r) := by
  rw [child?, children_respell hr, List.find?_map, child?]
  congr 2
  exact funext fun c => c.tree.isKind_respell r k

end Focus

namespace Tree

omit hr in
mutual

theorem focusesFrom_respell (hr : r.KeepsWidth) (above : List Step) (start : Nat) (t : Tree) :
    focusesFrom (above.map (Step.respell r)) start (t.respell r)
      = (focusesFrom above start t).map (Focus.respell r) := by
  cases t with
  | token t => simp [focusesFrom, Focus.respell]
  | node k cs =>
      have hcs := focusesOf_respell hr above k start [] start cs
      simpa [focusesFrom, Focus.respell] using hcs

theorem focusesOf_respell (hr : r.KeepsWidth) (above : List Step) (k : NodeKind) (nodeStart : Nat)
    (before : List Tree) (start : Nat) (cs : List Tree) :
    focusesOf (above.map (Step.respell r)) k nodeStart (before.map (respell r)) start
        (cs.map (respell r))
      = (focusesOf above k nodeStart before start cs).map (Focus.respell r) := by
  cases cs with
  | nil => simp [focusesOf]
  | cons c cs =>
      have hc := focusesFrom_respell hr (⟨k, nodeStart, before, cs⟩ :: above) start c
      have hcs := focusesOf_respell hr above k nodeStart (before ++ [c]) (start + c.width) cs
      rw [List.map_append] at hcs
      rw [List.map_cons, focusesOf, focusesOf, List.map_append, ← hc, ← hcs, width_respell hr]
      rfl

end

theorem focuses_respell (t : Tree) : (t.respell r).focuses = t.focuses.map (Focus.respell r) :=
  focusesFrom_respell hr [] 0 t

/-- A place keeps its path, its kind and its range. -/
theorem map_mark_focuses_respell (t : Tree) :
    (t.respell r).focuses.map Focus.mark = t.focuses.map Focus.mark := by
  rw [focuses_respell hr, List.map_map]
  exact List.map_congr_left fun f _ => f.mark_respell hr

theorem nodes_respell (t : Tree) : (t.respell r).nodes = t.nodes.map (Focus.respell r) := by
  rw [nodes, focuses_respell hr, List.filter_map, nodes]
  congr 2
  exact funext fun f => f.tree.isNode_respell r

theorem leaves_respell (t : Tree) : (t.respell r).leaves = t.leaves.map (Focus.respell r) := by
  rw [leaves, focuses_respell hr, List.filter_map, leaves]
  congr 2
  exact funext fun f => congrArg not (f.tree.isNode_respell r)

/-- What is highlighted stays so. -/
theorem highlights_respell (t : Tree) : (t.respell r).highlights = t.highlights := by
  unfold highlights
  rw [leaves_respell hr, List.filterMap_map]
  congr 1
  funext f
  rcases f with ⟨t, start, above⟩
  cases t with
  | node k cs => simp [Focus.respell]
  | token found =>
      have htag := highlightTag?_respell r ⟨.token found, start, above⟩ found
      have hspan := Focus.span_respell hr ⟨.token found, start, above⟩
      simp only [Function.comp, Focus.respell, respell_token] at htag hspan ⊢
      rw [htag, hspan]

end Tree

end Width

end CardQuery
