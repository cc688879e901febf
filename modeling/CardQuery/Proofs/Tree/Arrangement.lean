import CardQuery.Parse.Term
import CardQuery.Proofs.Tree.Nesting

/-!
# How the parts of a node are arranged

A node is *arranged* when its children are of kinds that it admits, in the order and in the number
that its kind asks for. What is missing in a text shows as a part that is missing from the end: a
binary node without its right operand, a tag without its value, a clause without its closing
parenthesis.

Rows of `and` and of `or` lean to the left, so the nodes among the operands of a binary node say
how tightly it binds. A tag is made of nodes alone, and each leaf holds tokens of its own kind.
-/

set_option autoImplicit false

namespace CardQuery

open CardQuery.Tree (AllOf nodeCount)

/-! ## The kinds of the children -/

/-- The kinds of the nodes among several trees, in order. -/
def Tree.kinds (cs : List Tree) : List NodeKind :=
  cs.filterMap Tree.kind?

namespace Tree

@[simp] theorem kinds_nil : kinds [] = [] := rfl

@[simp] theorem kinds_cons_token (t : Token) (cs : List Tree) :
    kinds (.token t :: cs) = kinds cs := rfl

@[simp] theorem kinds_cons_node (k : NodeKind) (ds cs : List Tree) :
    kinds (.node k ds :: cs) = k :: kinds cs := rfl

@[simp] theorem kinds_append (xs ys : List Tree) : kinds (xs ++ ys) = kinds xs ++ kinds ys :=
  List.filterMap_append

@[simp] theorem kinds_map_token (ts : List Token) : kinds (ts.map .token) = [] := by
  induction ts with
  | nil => rfl
  | cons t ts ih => exact ih

@[simp] theorem kinds_cons_leaf (k : NodeKind) (t : Token) (cs : List Tree) :
    kinds (.leaf k t :: cs) = k :: kinds cs := rfl

@[simp] theorem kinds_cons_flat (k : NodeKind) (ts : List Token) (cs : List Tree) :
    kinds (.flat k ts :: cs) = k :: kinds cs := rfl

theorem length_kinds (cs : List Tree) : (kinds cs).length = nodeCount cs :=
  length_filterMap_kind? cs

theorem mem_kinds {k : NodeKind} {cs : List Tree} :
    k ∈ kinds cs ↔ ∃ c ∈ cs, c.kind? = some k :=
  List.mem_filterMap

end Tree

namespace NodeKind

/-- Whether the kinds are those of the parts of a program with headers: a domain or none, and then
queries, at least one. -/
def IsOutline (ks : List NodeKind) : Prop :=
  ∃ n, ks = List.replicate (n + 1) .query ∨ ks = .domain :: List.replicate (n + 1) .query

/-- Whether the kinds are those of the operands of a binary node: one or two, of which only the
first can be a binary node, and only one that binds as tightly. -/
def AreOperands (op : Connective) (ks : List NodeKind) : Prop :=
  ∃ l : NodeKind, ∃ r : Option NodeKind, ks = l :: r.toList ∧ (op = .and → l ≠ .binary .or) ∧
    ∀ k ∈ r, k ≠ .binary .or ∧ (op = .and → k ≠ .binary .and)

/-- Whether the kinds are those of an argument and a comparison, with a value or without. -/
def isComparing : List NodeKind → Bool
  | [.argument, .operator] => true
  | [.argument, .operator, k] => k.isTagValue
  | _ => false

/-- Whether the kinds are those of the parts of a tag: a sign or none before an argument, a
comparison and perhaps a value, or a sign and perhaps a term. -/
def areTagParts : List NodeKind → Bool
  | [.sign] | [.sign, .argument] | [.sign, .literal _] => true
  | .sign :: ks => isComparing ks
  | ks => isComparing ks

/-- What a node is made of, in order. -/
def Parts (k : NodeKind) (cs : List Tree) : Prop :=
  match k with
  | .program => (∀ c ∈ cs, c.kind?.all isOperand = true) ∨ IsOutline (Tree.kinds cs)
  | .query => Tree.kinds cs = [.queryName, .queryBody]
  | .clause =>
    (∃ t rest, cs = .token t :: rest ∧ t.kind = .leftParen) ∧
      cs.dropLast.any Tree.isRightParen = false
  | .binary op => AreOperands op (Tree.kinds cs)
  | .tag => (∀ c ∈ cs, c.isNode = true) ∧ areTagParts (Tree.kinds cs) = true
  | .queryName | .argument => ∃ t : Token, cs = [.token t] ∧ t.kind = .word
  | .sign => ∃ t : Token, cs = [.token t] ∧ t.kind = .minus
  | .operator => ∃ t : Token, cs = [.token t] ∧ t.kind.isComparison = true
  | .literal kind => ∃ t : Token, cs = [.token t] ∧ t.kind = .literal kind
  | .value => ∃ ts : List Token, ts ≠ [] ∧ cs = ts.map .token ∧
      ∀ t ∈ ts, t.kind = .word ∨ t.kind = .minus
  | .error => ∃ ts : List Token, ts ≠ [] ∧ cs = ts.map .token
  | .domain | .queryBody => True

/-- What a node admits are kinds of nodes; tokens are never in the way. -/
theorem nests_iff_kinds {k : NodeKind} {cs : List Tree} :
    k.Nests cs ↔ ∀ j ∈ Tree.kinds cs, k.admits j = true := by
  constructor
  · intro h j hj
    obtain ⟨c, hc, hkind⟩ := Tree.mem_kinds.1 hj
    simpa [hkind] using h c hc
  · intro h c hc
    cases hkind : c.kind? with
    | none => rfl
    | some j => exact h j (Tree.mem_kinds.2 ⟨c, hc, hkind⟩)

/-- A program admits what stands in an outline. -/
theorem IsOutline.admits {ks : List NodeKind} (h : IsOutline ks) :
    ∀ j ∈ ks, NodeKind.program.admits j = true := by
  obtain ⟨n, rfl | rfl⟩ := h
  · intro j hj
    rw [(List.mem_replicate.1 hj).2]
    rfl
  · intro j hj
    rcases List.mem_cons.1 hj with rfl | hj
    · rfl
    · rw [(List.mem_replicate.1 hj).2]
      rfl

/-- Whether the children of a node are of kinds that it admits, and are arranged. -/
structure Arranged (k : NodeKind) (cs : List Tree) : Prop where
  nests : k.Nests cs
  parts : k.Parts cs

end NodeKind

end CardQuery
