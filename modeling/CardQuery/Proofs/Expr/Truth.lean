import CardQuery.Expr.Lowering
import CardQuery.Proofs.Tree.Nesting

/-!
# Truth

A valuation says of every tag without a sign whether it holds; a tag with a sign is the negation
of it. What an expression says is then true or false, and what a tree says is what its expression
says, if it has one.

Main statement: the truth of a region, a clause or a binary node is that of its expressions joined
(`truth?_of_joins`).
-/

set_option autoImplicit false

namespace CardQuery

open CardQuery.Tree (AllOf nodeCount)

/-- Which tags hold, given by their positive forms. -/
abbrev Valuation := QueryTag → Bool

/-- What a connective makes of two truths. -/
def Connective.holds : Connective → Bool → Bool → Bool
  | .and => fun a b => a && b
  | .or => fun a b => a || b

/-- Whether a tag holds. A sign negates it. -/
def QueryTag.holds (v : Valuation) (t : QueryTag) : Bool :=
  if t.isNegated then !v t.positive else v t.positive

namespace Expr

/-- Whether an expression holds. -/
def holds (v : Valuation) : Expr → Bool
  | .tag t => t.holds v
  | .binary op l r => op.holds (l.holds v) (r.holds v)
  | .clause e => e.holds v

/-- An expression that holds always or never. -/
def constant : Bool → Expr
  | true => .binary .or (.tag (.ofName none [])) (.tag (.ofName (some ['-']) []))
  | false => .binary .and (.tag (.ofName none [])) (.tag (.ofName (some ['-']) []))

@[simp] theorem holds_constant (v : Valuation) (b : Bool) : (constant b).holds v = b := by
  have hsign : (QueryTag.ofName (some ['-']) []).positive = .ofName none [] := rfl
  cases b <;>
    simp [constant, holds, Connective.holds, QueryTag.holds, QueryTag.isNegated, QueryTag.ofName,
      QueryTag.positive]

/-! ## Joined truths -/

theorem map_holds_combine? (v : Valuation) (op : Connective) (l r : Option Expr) :
    (combine? op l r).map (holds v)
      = Option.merge op.holds (l.map (holds v)) (r.map (holds v)) := by
  cases l <;> cases r <;> rfl

end Expr

instance (op : Connective) : Std.Associative op.holds where
  assoc a b c := by cases op <;> simp [Connective.holds, Bool.and_assoc, Bool.or_assoc]

namespace Connective

/-- Several truths joined; the missing ones are passed over. -/
def join (op : Connective) (truths : List (Option Bool)) : Option Bool :=
  truths.foldr (Option.merge op.holds) none

variable (op : Connective)

@[simp] theorem join_nil : op.join [] = none := rfl

@[simp] theorem join_cons (x : Option Bool) (truths : List (Option Bool)) :
    op.join (x :: truths) = Option.merge op.holds x (op.join truths) := rfl

theorem merge_assoc (x y z : Option Bool) :
    Option.merge op.holds (Option.merge op.holds x y) z
      = Option.merge op.holds x (Option.merge op.holds y z) :=
  Std.Associative.assoc x y z

theorem join_append (xs ys : List (Option Bool)) :
    op.join (xs ++ ys) = Option.merge op.holds (op.join xs) (op.join ys) := by
  induction xs with
  | nil => simp
  | cons x xs ih => simp [ih, merge_assoc]

/-- One truth that is known makes the whole known. -/
theorem exists_merge (x y : Option Bool) :
    ∃ f : Bool → Bool, ∀ b,
      Option.merge op.holds x (Option.merge op.holds (some b) y) = some (f b) := by
  cases x <;> cases y <;> exact ⟨_, fun _ => rfl⟩

/-- What is false makes all that holds together with it false. -/
theorem join_and_of_mem {truths : List (Option Bool)} (h : some false ∈ truths) :
    Connective.and.join truths = some false := by
  induction truths with
  | nil => cases h
  | cons x truths ih =>
      rw [join_cons]
      rcases List.mem_cons.1 h with rfl | h
      · cases Connective.and.join truths <;> rfl
      · rw [ih h]
        rcases x with _ | _ | _ <;> rfl

end Connective

/-- Two operands joined, of which any can be missing. -/
theorem Connective.merge_of_length_le (op : Connective) {os : List (Option Expr)}
    (h : os.length ≤ 2) {v : Valuation} :
    Option.merge op.holds (os[0]?.join.map (Expr.holds v)) (os[1]?.join.map (Expr.holds v))
      = op.join (os.map fun o => o.map (Expr.holds v)) := by
  cases os with
  | nil => rfl
  | cons l os =>
      cases os with
      | nil => simp
      | cons r os =>
          have hnil : os = [] := by simpa using h
          simp [hnil]

namespace Expr

theorem map_holds_all? (v : Valuation) (es : List Expr) :
    (all? es).map (holds v) = Connective.and.join (es.map fun e => some (e.holds v)) := by
  cases es with
  | nil => rfl
  | cons e es =>
      show some ((es.foldl (.binary .and) e).holds v) = _
      induction es generalizing e with
      | nil => rfl
      | cons e' es ih =>
          rw [List.foldl_cons, ih]
          simp only [List.map_cons, Connective.join_cons]
          rw [← Connective.merge_assoc]
          rfl

theorem map_holds_all?_filterMap (v : Valuation) (os : List (Option Expr)) :
    (all? (os.filterMap id)).map (holds v)
      = Connective.and.join (os.map fun o => o.map (holds v)) := by
  rw [map_holds_all?]
  induction os with
  | nil => rfl
  | cons o os ih =>
      cases o with
      | none =>
          rw [List.map_cons, Connective.join_cons, Option.map_none, Option.merge_none_left]
          exact ih
      | some e => exact congrArg (Option.merge Connective.and.holds (some (e.holds v))) ih

end Expr

/-! ## The truth of a tree -/

namespace Tree

/-- Whether what a tree asks holds, if it asks anything. -/
def truth? (v : Valuation) (t : Tree) : Option Bool :=
  t.expr?.map (Expr.holds v)

variable {v : Valuation}

theorem expr?_of_isExpression {t : Tree} (h : t.isExpression = true) : t.expr? = t.lower := by
  cases t with
  | token t => rfl
  | node k cs => cases k <;> first | rfl | cases h

/-- The truths of the expressions among several trees. -/
def truths (v : Valuation) (cs : List Tree) : List (Option Bool) :=
  (cs.filter isExpression).map (truth? v)

theorem truths_append (xs ys : List Tree) : truths v (xs ++ ys) = truths v xs ++ truths v ys := by
  simp [truths]

theorem truths_cons {c : Tree} (h : c.isExpression = true) (cs : List Tree) :
    truths v (c :: cs) = c.truth? v :: truths v cs := by
  simp [truths, h]

theorem map_holds_lowerEach (cs : List Tree) :
    (lowerEach cs).map (fun o => o.map (Expr.holds v)) = truths v cs := by
  rw [lowerEach_eq_map, truths, List.map_map]
  refine List.map_congr_left fun c hc => ?_
  rw [truth?, expr?_of_isExpression (List.mem_filter.1 hc).2]
  rfl

/-- **What a node that joins expressions asks is true as these joined are.** -/
theorem truth?_of_joins {k : NodeKind} {op : Connective} (hk : k.joins? = some op)
    {cs : List Tree} (hcount : ∀ op, k = .binary op → nodeCount cs ≤ 2) :
    (node k cs).truth? v = op.join (truths v cs) := by
  have hregion : (lowerRegion (node k cs)).map (Expr.holds v)
      = Connective.and.join (truths v cs) := by
    rw [lowerRegion, Expr.map_holds_all?_filterMap, children, map_holds_lowerEach]
  cases k with
  | program | domain | queryBody =>
      cases hk
      exact hregion
  | clause =>
      cases hk
      rw [← hregion]
      show ((lowerRegion (node .clause cs)).map Expr.clause).map (Expr.holds v) = _
      rw [Option.map_map]
      rfl
  | binary op' =>
      cases hk
      have htwo := (length_expressions_le cs).trans (hcount op rfl)
      have hlower : (node (.binary op) cs).truth? v
          = Option.merge op.holds ((lowerEach cs)[0]?.join.map (Expr.holds v))
            ((lowerEach cs)[1]?.join.map (Expr.holds v)) := by
        rw [← Expr.map_holds_combine?]
        simp [truth?, expr?, kind?, lower]
      rw [hlower, ← map_holds_lowerEach]
      have hlen : (lowerEach cs).length ≤ 2 := by
        rwa [lowerEach_eq_map, List.length_map]
      exact Connective.merge_of_length_le op hlen
  | _ => cases hk

end Tree

end CardQuery
