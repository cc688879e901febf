import CardQuery.Expr.Lowering
import CardQuery.Proofs.Tree.Squeeze
import CardQuery.Query.Residue

/-!
# Trees without their settings

`Tree.prune` takes the setting tags out of a tree. A binary node of which one operand goes becomes
the other, and what has nothing left goes itself. This says what is left of an expression without
looking at its text.

Main statement: what a binary node asks after pruning is what its operands ask then
(`bind_lower_prune_binary`).
-/

set_option autoImplicit false

namespace CardQuery

namespace Tree

/-- Whether a tag gives a setting. -/
def isSetting (tag : Tree) : Bool :=
  (settingOf? tag).isSome

mutual

/-- What is left of a tree without its setting tags, if anything is. -/
def prune : Tree → Option Tree
  | .token t => some (.token t)
  | .node k cs =>
    match k with
    | .tag => if isSetting (.node k cs) then none else some (.node k cs)
    | .clause =>
      let left := pruneEach cs
      if left.any isExpression then some (.node k left) else none
    | .binary _ =>
      let left := pruneEach cs
      match left.filter isExpression with
      | [] => none
      | [operand] => some operand
      | _ => some (.node k left)
    | _ => some (.node k cs)

/-- What is left of several trees. -/
def pruneEach : List Tree → List Tree
  | [] => []
  | c :: cs => (prune c).toList ++ pruneEach cs

end

/-- A region without its setting tags. -/
def pruneRegion : Tree → Tree
  | .token t => .token t
  | .node k cs => .node k (pruneEach cs)

@[simp] theorem prune_token (t : Token) : (token t).prune = some (token t) := by
  simp [prune]

@[simp] theorem pruneEach_nil : pruneEach [] = [] := by
  simp [pruneEach]

@[simp] theorem pruneEach_cons (c : Tree) (cs : List Tree) :
    pruneEach (c :: cs) = c.prune.toList ++ pruneEach cs := by
  simp [pruneEach]

theorem prune_clause (cs : List Tree) :
    (node .clause cs).prune
      = if (pruneEach cs).any isExpression then some (node .clause (pruneEach cs)) else none := by
  simp [prune]

theorem prune_binary (op : Connective) (cs : List Tree) :
    (node (.binary op) cs).prune = match (pruneEach cs).filter isExpression with
      | [] => none
      | [operand] => some operand
      | _ => some (node (.binary op) (pruneEach cs)) := by
  simp [prune]

/-- What is left of an expression is an expression, and of anything else it is none. -/
theorem isExpression_of_prune {t t' : Tree} (h : t.prune = some t') :
    t'.isExpression = t.isExpression := by
  cases t with
  | token t =>
      rw [prune_token, Option.some.injEq] at h
      rw [h]
  | node k cs =>
      cases k with
      | clause =>
          rw [prune_clause] at h
          split at h <;> cases h
          rfl
      | binary op =>
          rw [prune_binary] at h
          split at h
          · cases h
          · -- the operand that takes the place of the node is an expression itself
            next operand hone =>
              obtain rfl : operand = t' := by simpa using h
              have hmem : operand ∈ (pruneEach cs).filter isExpression := by simp [hone]
              exact (List.mem_filter.1 hmem).2
          · cases h
            rfl
      | tag =>
          simp only [prune] at h
          split at h <;> cases h
          rfl
      | _ =>
          simp only [prune, Option.some.injEq] at h
          rw [← h]

/-- The expressions that are left are what is left of the expressions. -/
theorem filter_isExpression_pruneEach (cs : List Tree) :
    (pruneEach cs).filter isExpression = (cs.filter isExpression).filterMap prune := by
  induction cs with
  | nil => simp
  | cons c cs ih =>
      rw [pruneEach_cons, List.filter_append, ih]
      cases hc : c.prune with
      | none => by_cases hexpr : c.isExpression = true <;> simp [hexpr, hc]
      | some c' =>
          have hkeep := isExpression_of_prune hc
          by_cases hexpr : c.isExpression = true <;> simp_all

/-- An expression is left just when something is left of one of them. -/
theorem any_isExpression_pruneEach (cs : List Tree) :
    (pruneEach cs).any isExpression = (cs.filter isExpression).any fun c => c.prune.isSome := by
  induction cs with
  | nil => simp
  | cons c cs ih =>
      rw [pruneEach_cons, List.any_append, ih]
      cases hc : c.prune with
      | none => by_cases hexpr : c.isExpression = true <;> simp [hexpr, hc]
      | some c' =>
          have hkeep := isExpression_of_prune hc
          by_cases hexpr : c.isExpression = true <;> simp_all

theorem lowerEach_pruneEach (cs : List Tree) :
    lowerEach (pruneEach cs) = ((cs.filter isExpression).filterMap prune).map lower := by
  rw [lowerEach_eq_map, filter_isExpression_pruneEach]

/-! ## What is asked after pruning -/

/-- A clause asks after pruning what its expression asks then. -/
theorem bind_lower_prune_clause {cs : List Tree} {t : Tree} (hcs : cs.filter isExpression = [t]) :
    (node .clause cs).prune.bind lower = (t.prune.bind lower).map .clause := by
  have hlower := lowerEach_pruneEach cs
  rw [hcs] at hlower
  rw [prune_clause, any_isExpression_pruneEach, hcs]
  cases ht : t.prune with
  | none => simp [ht]
  | some t' =>
      have hall : lowerEach (pruneEach cs) = [t'.lower] := by simpa [ht] using hlower
      cases hlow : t'.lower <;> simp [ht, lower, hall, hlow, Expr.all?, Expr.chain]

/-- A clause of whose expressions nothing is left has nothing left. -/
theorem prune_clause_eq_none {cs : List Tree} (h : ∀ c ∈ cs.filter isExpression, c.prune = none) :
    (node .clause cs).prune = none := by
  have hnone : (pruneEach cs).any isExpression = false := by
    rw [any_isExpression_pruneEach, Bool.eq_false_iff, ne_eq, List.any_eq_true]
    rintro ⟨c, hc, hsome⟩
    rw [h c hc] at hsome
    cases hsome
  rw [prune_clause, hnone]
  rfl

/-- **A binary node asks after pruning what its operands ask then.** -/
theorem bind_lower_prune_binary {op : Connective} {cs : List Tree} {l r : Tree}
    (hcs : cs.filter isExpression = [l, r]) :
    (node (.binary op) cs).prune.bind lower
      = Expr.combine? op (l.prune.bind lower) (r.prune.bind lower) := by
  have hleft := filter_isExpression_pruneEach cs
  rw [hcs] at hleft
  have hlower := lowerEach_pruneEach cs
  rw [hcs] at hlower
  rw [prune_binary, hleft]
  cases hl : l.prune with
  | none =>
      cases hr : r.prune with
      | none => simp [hl, hr, Expr.combine?]
      | some r' => simp [hl, hr, Expr.combine?]
  | some l' =>
      cases hr : r.prune with
      | none => cases hlow : l'.lower <;> simp [hl, hr, hlow, Expr.combine?]
      | some r' =>
          have hboth : lowerEach (pruneEach cs) = [l'.lower, r'.lower] := by
            simpa [hl, hr] using hlower
          simp [hl, hr, lower, hboth]

/-- A binary node of which both operands go has nothing left. -/
theorem prune_binary_eq_none {op : Connective} {cs : List Tree} {l r : Tree}
    (hcs : cs.filter isExpression = [l, r]) (hl : l.prune = none) (hr : r.prune = none) :
    (node (.binary op) cs).prune = none := by
  have hleft := filter_isExpression_pruneEach cs
  rw [hcs] at hleft
  rw [prune_binary, hleft]
  simp [hl, hr]

/-- A region asks after pruning what its expression asks then. -/
theorem lowerRegion_pruneRegion {k : NodeKind} {cs : List Tree} {t : Option Tree}
    (hcs : cs.filter isExpression = t.toList) :
    (node k cs).pruneRegion.lowerRegion = (t.bind prune).bind lower := by
  have hlower := lowerEach_pruneEach cs
  rw [hcs] at hlower
  have hregion : (node k cs).pruneRegion.lowerRegion
      = Expr.all? ((lowerEach (pruneEach cs)).filterMap id) := rfl
  rw [hregion, hlower]
  cases t with
  | none => rfl
  | some t =>
      cases ht : t.prune with
      | none => simp [ht, Expr.all?]
      | some t' => cases hlow : t'.lower <;> simp [ht, hlow, Expr.all?, Expr.chain]

end Tree

end CardQuery
