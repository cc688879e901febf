import CardQuery.Cursor.Tag
import CardQuery.Expr.Tag

/-!
# What the query around a position already says

The tags around a position fall into three groups: those that hold together with it (`required`),
those that are negated together with it (`forbidden`, stored without their sign), and, for each
branch of an `or` that the position is not in, the tags that the branch requires. Inside a query
the domain counts too, because it holds for every query.

`classify` reads a subtree downwards; `constraintsAbove` walks from a position up to its region and
collects the siblings on the way.
-/

set_option autoImplicit false

namespace CardQuery

/-- The tags around a position. -/
structure Constraints where
  required : List QueryTag
  forbidden : List QueryTag
  alternatives : List (List QueryTag)
  deriving DecidableEq, Repr

namespace Constraints

/-- Nothing is known. -/
def empty : Constraints :=
  ⟨[], [], []⟩

/-- What two parts say together. -/
def append (a b : Constraints) : Constraints :=
  ⟨a.required ++ b.required, a.forbidden ++ b.forbidden, a.alternatives ++ b.alternatives⟩

/-- What several parts say together. -/
def concat (parts : List Constraints) : Constraints :=
  parts.foldr append empty

theorem append_empty (k : Constraints) : k.append .empty = k := by
  simp [append, empty]

theorem append_assoc (k l m : Constraints) : (k.append l).append m = k.append (l.append m) := by
  simp [append]

theorem concat_cons (k : Constraints) (parts : List Constraints) :
    concat (k :: parts) = k.append (concat parts) := rfl

theorem concat_append (parts more : List Constraints) :
    concat (parts ++ more) = (concat parts).append (concat more) := by
  induction parts with
  | nil => rfl
  | cons k parts ih => rw [List.cons_append, concat_cons, concat_cons, ih, append_assoc]

/-- What a term says. -/
def ofTerm (t : Tree) : Constraints :=
  match QueryTag.ofTerm? t with
  | none => empty
  | some tag => if tag.isNegated then ⟨[], [tag.positive], []⟩ else ⟨[tag], [], []⟩

/-- The branches that an operand of `or` adds, given what it says: an operand that is itself an
`or` adds all of its own. -/
def branches (t : Tree) (inside : Constraints) : List (List QueryTag) :=
  if t.isKind (.binary .or) then inside.alternatives
  else if t.isExpression then [inside.required]
  else []

/-- Whether a tag or its negation is already decided. -/
def decides (c : Constraints) (tag : QueryTag) : Bool :=
  c.required.contains tag.positive || c.forbidden.contains tag.positive

end Constraints

namespace Tree

mutual

/-- What a subtree says when it holds. -/
def classify : Tree → Constraints
  | .token _ => .empty
  | .node k cs =>
    match k with
    | .tag | .argument | .literal _ => .ofTerm (.node k cs)
    | .binary .or => ⟨[], [], (classifyEach cs).flatMap fun p => Constraints.branches p.1 p.2⟩
    | .binary .and | .clause => .concat ((classifyEach cs).map Prod.snd)
    | .program | .domain | .queryBody =>
      .concat (((classifyEach cs).filter fun p => p.1.isExpression).map Prod.snd)
    | _ => .empty

/-- What each of several subtrees says. -/
def classifyEach : List Tree → List (Tree × Constraints)
  | [] => []
  | c :: cs => (c, classify c) :: classifyEach cs

end

end Tree

/-- What the expressions around a subtree say, up to its region. Clauses only group, and the
siblings at an `or` are branches of their own. -/
def constraintsAbove (t : Tree) : List Step → Constraints
  | [] => .empty
  | s :: above =>
    if t.kind?.any NodeKind.isRegion then .empty
    else
      let rest := constraintsAbove (s.fill t) above
      match s.kind with
      | .binary .and | .program | .domain | .queryBody =>
        (Constraints.concat (s.siblings.map Tree.classify)).append rest
      | .binary .or =>
        let branches := s.siblings.flatMap fun c => Constraints.branches c c.classify
        (⟨[], [], branches⟩ : Constraints).append rest
      | .query => .empty
      | _ => rest

/-- What is known at a position, and the node it is in: the nearest term, or where it touches no
term, the node around it. -/
structure ConstraintContext where
  constraints : Constraints
  current : Option Focus

namespace Tree

/-- The node that an offset is in. -/
def currentAt? (t : Tree) (offset : Nat) : Option Focus :=
  (t.ancestorAt? offset Focus.isTerm).or ((t.tokensAt offset).findSome? Focus.up?)

/-- What is known at an offset. An offset outside the text is in no node and sees the whole. -/
def constraintsAt (t : Tree) (offset : Nat) : ConstraintContext :=
  match t.currentAt? offset with
  | none => ⟨t.classify, none⟩
  | some current =>
    let inside := if current.isTerm then .empty else current.tree.classify
    let around := constraintsAbove current.tree current.above
    let inQuery := (current :: current.ancestors).any fun f => f.tree.isKind .query
    let shared := if inQuery then (t.domain?.map classify).getD .empty else .empty
    ⟨(inside.append around).append shared, some current⟩

/-- The candidates that the text around an offset does not decide already. -/
def undecidedAt (t : Tree) (offset : Nat) (candidates : List QueryTag) : List QueryTag :=
  let context := t.constraintsAt offset
  candidates.filter fun tag => !context.constraints.decides tag

end Tree

end CardQuery
