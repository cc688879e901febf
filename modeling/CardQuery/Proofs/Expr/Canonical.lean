import CardQuery.Proofs.Expr.Equivalence

/-!
# The normal form as a canonical form

`Expr.Regrouped` is the smallest congruence in which parentheses do not matter and a row of one
connective may be nested to either side. `Expr.IsNormal` says what a normal form looks like, without
the function that computes it. An expression is regrouped to its normal form, and what is regrouped
has the same operands, so equal normal forms are all that the congruence asks for.

Main statement: two expressions have the same normal form just when they are regrouped, and a normal
form is normal, is its own normal form and has the tags of the expression in their order
(`normalized_canonical`).
-/

set_option autoImplicit false

namespace CardQuery

namespace Expr

/-- The smallest congruence that drops parentheses and nests a row of one connective to either
side. -/
inductive Regrouped : Expr → Expr → Prop
  | refl (a : Expr) : Regrouped a a
  | symm {a b : Expr} (h : Regrouped a b) : Regrouped b a
  | trans {a b c : Expr} (hab : Regrouped a b) (hbc : Regrouped b c) : Regrouped a c
  | binary {op : Connective} {l l' r r' : Expr} (hl : Regrouped l l') (hr : Regrouped r r') :
      Regrouped (.binary op l r) (.binary op l' r')
  | clause {a b : Expr} (h : Regrouped a b) : Regrouped (.clause a) (.clause b)
  | parens (a : Expr) : Regrouped (.clause a) a
  | assoc (op : Connective) (a b c : Expr) :
      Regrouped (.binary op (.binary op a b) c) (.binary op a (.binary op b c))

instance : Trans Regrouped Regrouped Regrouped := ⟨Regrouped.trans⟩

/-- Whether an expression joins by `op`. -/
def joinsBy (op : Connective) : Expr → Bool
  | .binary inner _ _ => inner = op
  | _ => false

/-- Whether an expression has no clause, and no binary node with a right operand that joins by the
same connective. -/
def IsNormal : Expr → Prop
  | .tag _ => True
  | .clause _ => False
  | .binary op l r => IsNormal l ∧ IsNormal r ∧ joinsBy op r = false

/-! ## Rows -/

section Chain

variable (op : Connective) (a : Expr)

@[simp] theorem chain_nil : chain op a [] = a := rfl

@[simp] theorem chain_cons (b : Expr) (bs : List Expr) :
    chain op a (b :: bs) = chain op (.binary op a b) bs := rfl

theorem chain_append (as bs : List Expr) :
    chain op a (as ++ bs) = chain op (chain op a as) bs :=
  List.foldl_append

theorem tags_chain (bs : List Expr) : (chain op a bs).tags = a.tags ++ bs.flatMap tags := by
  induction bs generalizing a with
  | nil => simp
  | cons b bs ih => simp [ih, tags]

end Chain

theorem operands_binary_self (op : Connective) (l r : Expr) :
    operands op (.binary op l r)
      = ((operands op l).1, (operands op l).2 ++ (operands op r).1 :: (operands op r).2) := by
  simp [operands]

/-- A binary node of another connective is one operand: its own row. -/
theorem operands_binary_of_ne {op inner : Connective} (h : inner ≠ op) (l r : Expr) :
    operands op (.binary inner l r)
      = (chain inner (operands inner l).1
          ((operands inner l).2 ++ (operands inner r).1 :: (operands inner r).2), []) := by
  simp [operands, h]

/-- The row of an expression, put together again by `op`. -/
def regrouped (op : Connective) (e : Expr) : Expr :=
  chain op (operands op e).1 (operands op e).2

theorem regrouped_binary_self (op : Connective) (l r : Expr) :
    (binary op l r).regrouped op
      = chain op (l.regrouped op) ((operands op r).1 :: (operands op r).2) := by
  rw [regrouped, operands_binary_self, chain_append, regrouped]

/-- Which connective an expression is an operand of does not change what it is put together to, if
it joins by another. -/
theorem regrouped_binary_of_ne {op inner : Connective} (h : inner ≠ op) (l r : Expr) :
    (binary inner l r).regrouped op = (binary inner l r).regrouped inner := by
  rw [regrouped, operands_binary_of_ne h, regrouped, operands_binary_self, chain_nil]

/-! ## Regrouping to the normal form -/

theorem Regrouped.chain {op : Connective} {a b : Expr} (h : Regrouped a b) (cs : List Expr) :
    Regrouped (chain op a cs) (chain op b cs) := by
  induction cs generalizing a b with
  | nil => exact h
  | cons c cs ih => exact ih (h.binary (.refl c))

/-- A row as the right operand of its own connective is a continuation of the row. -/
theorem Regrouped.binary_chain (op : Connective) (a b : Expr) (bs : List Expr) :
    Regrouped (.binary op a (Expr.chain op b bs)) (Expr.chain op a (b :: bs)) := by
  induction bs generalizing b with
  | nil => exact .refl _
  | cons c cs ih =>
      have hassoc : Regrouped (.binary op a (.binary op b c)) (.binary op (.binary op a b) c) :=
        (Regrouped.assoc op a b c).symm
      exact (ih (.binary op b c)).trans (hassoc.chain cs)

/-- An expression is regrouped to its own row. -/
theorem Regrouped.to_regrouped (e : Expr) (op : Connective) : Regrouped e (e.regrouped op) := by
  induction e generalizing op with
  | tag t => exact .refl _
  | clause e ih => exact (Regrouped.parens e).trans (ih op)
  | binary inner l r ihl ihr =>
      have hself : Regrouped (.binary inner l r) ((Expr.binary inner l r).regrouped inner) := by
        rw [regrouped_binary_self]
        calc
          Regrouped (.binary inner l r) (.binary inner (l.regrouped inner) (r.regrouped inner)) :=
            (ihl inner).binary (ihr inner)
          Regrouped _ _ := Regrouped.binary_chain inner _ _ _
      by_cases h : inner = op
      · exact h ▸ hself
      · rw [regrouped_binary_of_ne h]
        exact hself

/-- What is regrouped has the same operands. -/
theorem Regrouped.alike {a b : Expr} (h : Regrouped a b) : Alike a b := by
  induction h with
  | refl a => exact .refl a
  | symm _ ih => exact ih.symm
  | trans _ _ hab hbc => exact hab.trans hbc
  | binary _ _ hl hr => exact hl.binary hr
  | @clause a b _ ih => exact (Alike.clause a).trans (ih.trans (Alike.clause b).symm)
  | parens a => exact .clause a
  | assoc op a b c => exact .assoc op a b c

theorem normalized_eq_iff {a b : Expr} : a.normalized = b.normalized ↔ Regrouped a b := by
  constructor
  · intro h
    calc
      Regrouped a a.normalized := Regrouped.to_regrouped a .and
      Regrouped _ b.normalized := h ▸ Regrouped.refl _
      Regrouped _ b := (Regrouped.to_regrouped b .and).symm
  · intro h
    exact h.alike.normalized_eq

/-! ## Normal forms -/

/-- Whether an expression can be an operand of `op` in a normal form. -/
structure IsOperandOf (op : Connective) (e : Expr) : Prop where
  normal : e.IsNormal
  other : e.joinsBy op = false

theorem IsNormal.chain {op : Connective} {a : Expr} (ha : a.IsNormal) {bs : List Expr}
    (hbs : ∀ b ∈ bs, b.IsOperandOf op) : (chain op a bs).IsNormal := by
  induction bs generalizing a with
  | nil => exact ha
  | cons b bs ih =>
      obtain ⟨hb, hbs⟩ := List.forall_mem_cons.1 hbs
      exact ih ⟨ha, hb.normal, hb.other⟩ hbs

/-- A row of at least two operands joins by its connective. -/
theorem joinsBy_chain (op op' : Connective) (a b : Expr) (bs : List Expr) :
    joinsBy op' (chain op a (b :: bs)) = decide (op = op') := by
  induction bs generalizing a b with
  | nil => rfl
  | cons c cs ih => exact ih (.binary op a b) c

/-- Every operand of a row is normal and no row of the same connective. -/
theorem isOperandOf_operands (e : Expr) (op : Connective) :
    (operands op e).1.IsOperandOf op ∧ ∀ b ∈ (operands op e).2, b.IsOperandOf op := by
  induction e generalizing op with
  | tag t => exact ⟨⟨trivial, rfl⟩, by simp [operands]⟩
  | clause e ih => exact ih op
  | binary inner l r ihl ihr =>
      have hrest : ∀ b ∈ (operands inner l).2 ++ (operands inner r).1 :: (operands inner r).2,
          b.IsOperandOf inner := by
        rw [List.forall_mem_append, List.forall_mem_cons]
        exact ⟨(ihl inner).2, ihr inner⟩
      by_cases h : inner = op
      · subst h
        rw [operands_binary_self]
        exact ⟨(ihl inner).1, hrest⟩
      · rw [operands_binary_of_ne h]
        refine ⟨⟨(ihl inner).1.normal.chain hrest, ?_⟩, by simp⟩
        -- the row has two operands, so it joins by `inner` and not by `op`
        cases (operands inner l).2 with
        | nil => rw [List.nil_append, joinsBy_chain, decide_eq_false h]
        | cons b bs => rw [List.cons_append, joinsBy_chain, decide_eq_false h]

theorem isNormal_normalized (e : Expr) : e.normalized.IsNormal :=
  have h := isOperandOf_operands e .and
  h.1.normal.chain h.2

/-- A normal expression is put together as it was, and is one operand unless it joins by `op`. -/
theorem IsNormal.regrouped_eq {e : Expr} (h : e.IsNormal) (op : Connective) :
    e.regrouped op = e ∧ (e.joinsBy op = false → (operands op e).2 = []) := by
  induction e generalizing op with
  | tag t => exact ⟨rfl, fun _ => rfl⟩
  | clause e ih => exact h.elim
  | binary inner l r ihl ihr =>
      obtain ⟨hl, hr, hright⟩ := h
      obtain ⟨hr_eq, hr_single⟩ := ihr hr inner
      have hself : (binary inner l r).regrouped inner = .binary inner l r := by
        rw [regrouped, hr_single hright, chain_nil] at hr_eq
        rw [regrouped_binary_self, (ihl hl inner).1, hr_single hright, hr_eq]
        rfl
      by_cases hop : inner = op
      · subst hop
        exact ⟨hself, fun hjoins => by simp [joinsBy] at hjoins⟩
      · exact ⟨(regrouped_binary_of_ne hop l r).trans hself, fun _ => by
          rw [operands_binary_of_ne hop]⟩

theorem tags_operands (e : Expr) (op : Connective) :
    (operands op e).1.tags ++ (operands op e).2.flatMap tags = e.tags := by
  induction e generalizing op with
  | tag t => simp [operands]
  | clause e ih => exact ih op
  | binary inner l r ihl ihr =>
      have hrow : (operands inner l).1.tags ++ ((operands inner l).2
          ++ (operands inner r).1 :: (operands inner r).2).flatMap tags = l.tags ++ r.tags := by
        rw [← ihl inner, ← ihr inner]
        simp
      by_cases h : inner = op
      · subst h
        rw [operands_binary_self]
        exact hrow
      · rw [operands_binary_of_ne h]
        simpa [tags_chain, tags] using hrow

/-- **The normal form is canonical.** Two expressions have the same normal form just when one can be
regrouped to the other. A normal form has no clause and no right operand that joins by the
connective of its node, and such an expression is its own normal form. The tags stay as they are,
from left to right. -/
theorem normalized_canonical (a b : Expr) :
    (a.normalized = b.normalized ↔ Regrouped a b) ∧ a.normalized.IsNormal ∧
      a.normalized.normalized = a.normalized ∧ (a.IsNormal ↔ a.normalized = a) ∧
      a.normalized.tags = a.tags := by
  have hnormal := isNormal_normalized a
  have hfixed : ∀ e : Expr, e.IsNormal → e.normalized = e := fun e he => (he.regrouped_eq .and).1
  refine ⟨normalized_eq_iff, hnormal, hfixed _ hnormal, ⟨hfixed a, fun h => h ▸ hnormal⟩, ?_⟩
  rw [normalized, tags_chain, tags_operands]

end Expr

end CardQuery
