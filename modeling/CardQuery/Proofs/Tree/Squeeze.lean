import CardQuery.Expr.Lowering
import CardQuery.Proofs.Tree.Faultless

/-!
# Trees without blanks

`Tree.squeeze` drops the blanks that stand between the operands of a binary node and inside the
parentheses of a clause. Nothing that an expression means depends on them.

Main statements: squeezing changes neither the expression of a tree (`lower_squeeze`) nor whether
the tree is faultless (`faultless_squeeze`).
-/

set_option autoImplicit false

namespace CardQuery

namespace Tree

@[simp] theorem kind?_token (t : Token) : (token t).kind? = none := rfl

@[simp] theorem kind?_node (k : NodeKind) (cs : List Tree) : (node k cs).kind? = some k := rfl

@[simp] theorem tokenKind?_token (t : Token) : (token t).tokenKind? = some t.kind := rfl

@[simp] theorem tokenKind?_node (k : NodeKind) (cs : List Tree) :
    (node k cs).tokenKind? = none := rfl

@[simp] theorem isExpression_token (t : Token) : (token t).isExpression = false := rfl

/-- Whether a tree is a blank token. -/
def isBlank : Tree → Bool
  | .token t => t.isBlank
  | .node _ _ => false

mutual

/-- A tree without the blanks between its operands and inside its parentheses. -/
def squeeze : Tree → Tree
  | .token t => .token t
  | .node k cs =>
    match k with
    | .clause | .binary _ => .node k (squeezeEach cs)
    | _ => .node k cs

/-- Several trees without the blanks among them. -/
def squeezeEach : List Tree → List Tree
  | [] => []
  | c :: cs => if c.isBlank then squeezeEach cs else squeeze c :: squeezeEach cs

end

@[simp] theorem squeeze_token (t : Token) : (token t).squeeze = token t := by
  simp [squeeze]

@[simp] theorem squeeze_clause (cs : List Tree) :
    (node .clause cs).squeeze = node .clause (squeezeEach cs) := by
  simp [squeeze]

@[simp] theorem squeeze_binary (op : Connective) (cs : List Tree) :
    (node (.binary op) cs).squeeze = node (.binary op) (squeezeEach cs) := by
  simp [squeeze]

@[simp] theorem squeezeEach_nil : squeezeEach [] = [] := by
  simp [squeezeEach]

theorem squeezeEach_cons (c : Tree) (cs : List Tree) :
    squeezeEach (c :: cs) = if c.isBlank then squeezeEach cs else c.squeeze :: squeezeEach cs := by
  simp [squeezeEach]

@[simp] theorem squeezeEach_node (k : NodeKind) (cs rest : List Tree) :
    squeezeEach (node k cs :: rest) = (node k cs).squeeze :: squeezeEach rest := by
  simp [squeezeEach_cons, isBlank]

theorem squeezeEach_token_blank {t : Token} (h : t.kind = .blank) (rest : List Tree) :
    squeezeEach (token t :: rest) = squeezeEach rest := by
  simp [squeezeEach_cons, isBlank, Token.isBlank, h]

theorem squeezeEach_token {t : Token} (h : t.kind ≠ .blank) (rest : List Tree) :
    squeezeEach (token t :: rest) = token t :: squeezeEach rest := by
  simp [squeezeEach_cons, isBlank, Token.isBlank, h]

@[simp] theorem squeezeEach_append (xs ys : List Tree) :
    squeezeEach (xs ++ ys) = squeezeEach xs ++ squeezeEach ys := by
  induction xs with
  | nil => simp
  | cons x xs ih =>
      rw [List.cons_append, squeezeEach_cons, squeezeEach_cons, ih]
      split <;> simp

@[simp] theorem kind?_squeeze (t : Tree) : t.squeeze.kind? = t.kind? := by
  cases t with
  | token t => simp
  | node k cs => cases k <;> simp [squeeze]

@[simp] theorem isExpression_squeeze (t : Tree) : t.squeeze.isExpression = t.isExpression := by
  simp [isExpression]

@[simp] theorem tokenKind?_squeeze (t : Tree) : t.squeeze.tokenKind? = t.tokenKind? := by
  cases t with
  | token t => simp
  | node k cs => cases k <;> simp [squeeze]

theorem isExpression_of_isBlank {t : Tree} (h : t.isBlank = true) : t.isExpression = false := by
  cases t with
  | token t => rfl
  | node k cs => cases h

/-! ## Meaning -/

mutual

/-- Blanks do not change what a tree means. -/
theorem lower_squeeze (t : Tree) : t.squeeze.lower = t.lower := by
  cases t with
  | token t => simp
  | node k cs =>
      have ih := lowerEach_squeezeEach cs
      cases k <;> simp [squeeze, lower, ih]

theorem lowerEach_squeezeEach (cs : List Tree) : lowerEach (squeezeEach cs) = lowerEach cs := by
  cases cs with
  | nil => simp
  | cons c cs =>
      have hc := lower_squeeze c
      have ih := lowerEach_squeezeEach cs
      rw [squeezeEach_cons]
      split
      · next hblank => simp [lowerEach, isExpression_of_isBlank hblank, ih]
      · simp [lowerEach, hc, ih]

end

/-! ## Problems -/

theorem filterMap_kind?_squeezeEach (cs : List Tree) :
    (squeezeEach cs).filterMap kind? = cs.filterMap kind? := by
  induction cs with
  | nil => simp
  | cons c cs ih =>
      rw [squeezeEach_cons]
      split
      · next hblank =>
          cases c with
          | token t => rw [ih, List.filterMap_cons, kind?_token]
          | node k ds => cases hblank
      · simp [List.filterMap_cons, ih]

theorem any_rightParen_squeezeEach (cs : List Tree) :
    (squeezeEach cs).any (fun c => c.tokenKind? = some .rightParen)
      = cs.any fun c => c.tokenKind? = some .rightParen := by
  induction cs with
  | nil => simp
  | cons c cs ih =>
      rw [squeezeEach_cons]
      split
      · next hblank =>
          cases c with
          | token t =>
              have hk : t.kind = .blank := by simpa [isBlank, Token.isBlank] using hblank
              simp [ih, hk]
          | node k ds => cases hblank
      · simp [ih]

theorem closingProblem?_squeezeEach {k : NodeKind} (cs : List Tree)
    (hk : k = .clause ∨ ∃ op, k = .binary op) :
    closingProblem? k (squeezeEach cs) = closingProblem? k cs := by
  rcases hk with rfl | ⟨op, rfl⟩
  · simp only [closingProblem?, isClosed, children, any_rightParen_squeezeEach]
    rfl
  · simp only [closingProblem?, filterMap_kind?_squeezeEach]

mutual

/-- Blanks do not change whether something is wrong with a tree. -/
theorem faultless_squeeze (t : Tree) : t.squeeze.faultless = t.faultless := by
  cases t with
  | token t => simp
  | node k cs =>
      have ih := faultlessEach_squeezeEach cs
      cases k with
      | clause =>
          rw [squeeze_clause, faultless_node, faultless_node, ih,
            closingProblem?_squeezeEach cs (Or.inl rfl)]
          rfl
      | binary op =>
          rw [squeeze_binary, faultless_node, faultless_node, ih,
            closingProblem?_squeezeEach cs (Or.inr ⟨op, rfl⟩)]
          rfl
      | _ => simp [squeeze]

theorem faultlessEach_squeezeEach (cs : List Tree) :
    faultlessEach (squeezeEach cs) = faultlessEach cs := by
  cases cs with
  | nil => simp
  | cons c cs =>
      have hc := faultless_squeeze c
      have ih := faultlessEach_squeezeEach cs
      rw [squeezeEach_cons]
      split
      · next hblank =>
          cases c with
          | token t => simp [ih]
          | node k ds => cases hblank
      · simp [hc, ih]

end

end Tree

end CardQuery
