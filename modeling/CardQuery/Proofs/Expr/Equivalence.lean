import CardQuery.Expr.Normal

/-!
# Expressions with the same normal form

`Expr.Alike` relates expressions that are the same row of operands for each connective. It is kept
by both connectives and by parentheses, and a row may be nested as one likes.

Main statement: what is alike has the same normal form (`Alike.normalized_eq`).
-/

set_option autoImplicit false

namespace CardQuery

namespace Expr

/-- Whether two expressions have the same operands, whatever they are an operand of. -/
def Alike (a b : Expr) : Prop :=
  ∀ op, a.operands op = b.operands op

namespace Alike

variable {a b c : Expr} {op : Connective}

theorem refl (a : Expr) : Alike a a := fun _ => rfl

theorem symm (h : Alike a b) : Alike b a := fun op => (h op).symm

theorem trans (hab : Alike a b) (hbc : Alike b c) : Alike a c :=
  fun op => (hab op).trans (hbc op)

/-- Parentheses do not matter. -/
theorem clause (a : Expr) : Alike (.clause a) a := fun _ => rfl

theorem binary {l l' r r' : Expr} (hl : Alike l l') (hr : Alike r r') :
    Alike (.binary op l r) (.binary op l' r') := by
  intro op'
  rw [operands, operands, hl op, hr op]

/-- A row of one connective may be nested to the left or to the right. -/
theorem assoc (op : Connective) (a b c : Expr) :
    Alike (.binary op (.binary op a b) c) (.binary op a (.binary op b c)) := by
  intro op'
  simp [operands]

/-- **What is alike has the same normal form.** -/
theorem normalized_eq (h : Alike a b) : a.normalized = b.normalized := by
  rw [normalized, normalized, h .and]

end Alike

/-- The normal form of two expressions joined depends on their normal forms alone, and on those
only if there are two. -/
theorem map_normalized_combine? {op : Connective} {l l' r r' : Option Expr}
    (hl : Option.Rel Alike l l') (hr : Option.Rel Alike r r') :
    (combine? op l r).map normalized = (combine? op l' r').map normalized := by
  cases hl with
  | none =>
      cases hr with
      | none => rfl
      | some hr => exact congrArg some hr.normalized_eq
  | some hl =>
      cases hr with
      | none => exact congrArg some hl.normalized_eq
      | some hr => exact congrArg some (hl.binary hr).normalized_eq

end Expr

end CardQuery
