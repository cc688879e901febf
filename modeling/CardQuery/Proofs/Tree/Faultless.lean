import CardQuery.Parse.Problem

/-!
# Trees without problems

Whether a tree has a problem does not depend on where it stands. `Tree.faultless` asks each node
for itself, so a tree is faultless exactly when its parts are and its own node lacks nothing.

Main statement: a tree has no syntax error just when it is faultless (`syntaxErrors_eq_nil_iff`).
-/

set_option autoImplicit false

namespace CardQuery

namespace Tree

mutual

/-- Whether nothing is wrong with a tree. -/
def faultless : Tree → Bool
  | .token _ => true
  | .node k cs =>
    (openingProblem? k cs).isNone && (closingProblem? k cs).isNone && faultlessEach cs

/-- Whether nothing is wrong with any of several trees. -/
def faultlessEach : List Tree → Bool
  | [] => true
  | c :: cs => c.faultless && faultlessEach cs

end

@[simp] theorem faultless_token (t : Token) : (token t).faultless = true := by
  simp [faultless]

theorem faultless_node (k : NodeKind) (cs : List Tree) :
    (node k cs).faultless
      = ((openingProblem? k cs).isNone && (closingProblem? k cs).isNone && faultlessEach cs) := by
  simp [faultless]

/-- Nothing can be missing in a region but what is missing in its parts. -/
theorem faultless_of_isRegion {k : NodeKind} (hk : k.isRegion = true) (cs : List Tree) :
    (node k cs).faultless = faultlessEach cs := by
  cases k <;> cases hk <;> simp [faultless_node, openingProblem?, closingProblem?]

@[simp] theorem faultlessEach_nil : faultlessEach [] = true := by
  simp [faultlessEach]

@[simp] theorem faultlessEach_cons (c : Tree) (cs : List Tree) :
    faultlessEach (c :: cs) = (c.faultless && faultlessEach cs) := by
  simp [faultlessEach]

@[simp] theorem faultlessEach_append (xs ys : List Tree) :
    faultlessEach (xs ++ ys) = (faultlessEach xs && faultlessEach ys) := by
  induction xs with
  | nil => simp
  | cons x xs ih => simp [ih, Bool.and_assoc]

@[simp] theorem faultlessEach_map_token (ts : List Token) :
    faultlessEach (ts.map token) = true := by
  induction ts with
  | nil => simp
  | cons t ts ih => simp [ih]

theorem faultlessEach_eq_true_iff {cs : List Tree} :
    faultlessEach cs = true ↔ ∀ c ∈ cs, c.faultless = true := by
  induction cs with
  | nil => simp
  | cons c cs ih => simp [ih]

theorem faultless_of_mem {k : NodeKind} {cs : List Tree} {c : Tree}
    (h : (node k cs).faultless = true) (hc : c ∈ cs) : c.faultless = true := by
  rw [faultless_node, Bool.and_eq_true] at h
  exact faultlessEach_eq_true_iff.1 h.2 c hc

theorem openingProblem?_eq_none {k : NodeKind} {cs : List Tree}
    (h : (node k cs).faultless = true) : openingProblem? k cs = none := by
  rw [faultless_node, Bool.and_eq_true, Bool.and_eq_true] at h
  exact Option.isNone_iff_eq_none.1 h.1.1

theorem closingProblem?_eq_none {k : NodeKind} {cs : List Tree}
    (h : (node k cs).faultless = true) : closingProblem? k cs = none := by
  rw [faultless_node, Bool.and_eq_true, Bool.and_eq_true] at h
  exact Option.isNone_iff_eq_none.1 h.1.2

end Tree

mutual

theorem problemsFrom_eq_nil_iff (start : Nat) (t : Tree) :
    problemsFrom start t = [] ↔ t.faultless = true := by
  cases t with
  | token t => simp [problemsFrom]
  | node k cs =>
      have ih := problemsOf_eq_nil_iff start cs
      simp [problemsFrom, Tree.faultless_node, ih, and_assoc, and_comm, and_left_comm]

theorem problemsOf_eq_nil_iff (start : Nat) (cs : List Tree) :
    problemsOf start cs = [] ↔ Tree.faultlessEach cs = true := by
  cases cs with
  | nil => simp [problemsOf]
  | cons c cs =>
      have hc := problemsFrom_eq_nil_iff start c
      have hcs := problemsOf_eq_nil_iff (start + c.width) cs
      simp [problemsOf, hc, hcs]

end

/-- A tree has no syntax error just when nothing is wrong with it. -/
theorem syntaxErrors_eq_nil_iff (t : Tree) : syntaxErrors t = [] ↔ t.faultless = true := by
  rw [← problemsFrom_eq_nil_iff 0 t]
  simp [syntaxErrors]

end CardQuery
