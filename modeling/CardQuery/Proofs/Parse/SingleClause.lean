import CardQuery.Proofs.Parse.Program

/-!
# Clauses that hold one expression

Side by side, two expressions in a clause would be joined. Only errors can part them, so in a text
without errors each clause has at most one expression.

Main statement: `all_singleClause_parse`.
-/

set_option autoImplicit false

namespace CardQuery

open CardQuery.Tree (AllOf)

/-- Whether a node, if it is a clause, has at most one child that is an expression. -/
def NodeKind.SingleClause (k : NodeKind) (cs : List Tree) : Prop :=
  k = .clause → (cs.filter Tree.isExpression).length ≤ 1

theorem NodeKind.singleClause_of_ne {k : NodeKind} (h : k ≠ .clause) (cs : List Tree) :
    k.SingleClause cs :=
  fun hk => absurd hk h

namespace Tree

/-- A node of tokens that is no clause has no clause in it. -/
theorem singleClause_flat {k : NodeKind} (h : k ≠ .clause) (ts : List Token) :
    (flat k ts).All NodeKind.SingleClause := by
  rw [flat, all_node]
  exact ⟨k.singleClause_of_ne h _, allOf_map_token ts⟩

theorem singleClause_leaf {k : NodeKind} (h : k ≠ .clause) (t : Token) :
    (leaf k t).All NodeKind.SingleClause :=
  singleClause_flat h [t]

theorem length_filter_squeezeEach (cs : List Tree) :
    ((squeezeEach cs).filter isExpression).length = (cs.filter isExpression).length := by
  induction cs with
  | nil => simp
  | cons c cs ih =>
      rw [squeezeEach_cons]
      cases hblank : c.isBlank with
      | true => simp [isExpression_of_isBlank hblank, ih]
      | false => cases hc : c.isExpression <;> simp [hc, ih]

mutual

/-- Blanks put no expression into a clause. -/
theorem singleClause_of_squeeze {t : Tree} (h : t.squeeze.All NodeKind.SingleClause) :
    t.All NodeKind.SingleClause := by
  cases t with
  | token t => simp
  | node k cs =>
      cases k with
      | clause =>
          rw [squeeze_clause, all_node] at h
          rw [all_node]
          refine ⟨fun _ => ?_, singleClause_of_squeezeEach h.2⟩
          rw [← length_filter_squeezeEach]
          exact h.1 rfl
      | binary op =>
          rw [squeeze_binary, all_node] at h
          rw [all_node]
          exact ⟨NodeKind.singleClause_of_ne (by simp) cs, singleClause_of_squeezeEach h.2⟩
      | _ => simpa [squeeze] using h

theorem singleClause_of_squeezeEach {cs : List Tree}
    (h : AllOf NodeKind.SingleClause (squeezeEach cs)) : AllOf NodeKind.SingleClause cs := by
  cases cs with
  | nil => simp
  | cons c cs =>
      rw [squeezeEach_cons] at h
      rw [allOf_cons]
      split at h
      · next hblank =>
          cases c with
          | token t => exact ⟨by simp, singleClause_of_squeezeEach h⟩
          | node k ds => cases hblank
      · rw [allOf_cons] at h
        exact ⟨singleClause_of_squeeze h.1, singleClause_of_squeezeEach h.2⟩

end

end Tree

/-! ## Expressions and texts -/

theorem SpelledValue.singleClause {ts : List Token} {v : Tree} {e : Ending}
    (h : SpelledValue ts v e) : v.All NodeKind.SingleClause := by
  cases h with
  | literal hk hclosed => exact Tree.singleClause_leaf (by simp) _
  | keyword hk => exact Tree.singleClause_leaf (by simp) _
  | words hne hts => exact Tree.singleClause_flat (by simp) _

theorem SpelledTerm.singleClause {w : List Token} {t : Tree} {e : Ending}
    (h : SpelledTerm w t e) : t.All NodeKind.SingleClause := by
  have htag : ∀ {parts : List Tree}, AllOf NodeKind.SingleClause parts →
      (Tree.node .tag parts).All NodeKind.SingleClause := by
    intro parts hparts
    rw [Tree.all_node]
    exact ⟨NodeKind.singleClause_of_ne (by simp) parts, hparts⟩
  cases h with
  | literal hk hclosed => exact Tree.singleClause_leaf (by simp) _
  | word hw => exact Tree.singleClause_leaf (by simp) _
  | signedLiteral hm hk hclosed => exact htag (by simp [Tree.singleClause_leaf])
  | signedWord hm hw => exact htag (by simp [Tree.singleClause_leaf])
  | @tag s a op ts v e hsign ha hop hv =>
      cases s <;> exact htag (by simp [Tree.singleClause_leaf, hv.singleClause])

/-- The clauses of an expression without errors hold at most one expression. -/
theorem Shape.singleClause {lvl : Level} {t : Tree} (h : Shape lvl t) :
    t.All NodeKind.SingleClause := by
  induction h with
  | simple h => exact h.singleClause
  | empty ho hc => simp [NodeKind.SingleClause]
  | @clause o c t ho hc ht ih => simp [NodeKind.SingleClause, ih, ht.isExpression]
  | @join op k l r hl hk hr ihl ihr => cases k <;> simp [NodeKind.SingleClause, ihl, ihr]
  | ofTerm h ih => exact ih
  | ofAnd h ih => exact ih

theorem singleClause_regionTrees {ts : List Token}
    (h : Tree.faultlessEach (regionTrees ts) = true) :
    AllOf NodeKind.SingleClause (regionTrees ts) := by
  obtain ⟨o, ho⟩ := reads_of_faultless h
  refine Tree.singleClause_of_squeezeEach ?_
  rw [ho.squeezeEach_regionTrees]
  cases o with
  | none => simp
  | some t => simp [ho.shape.singleClause]

/-- **In a text without errors each clause has at most one expression.** -/
theorem all_singleClause_parse {t : Text} (h : syntaxErrors (parse t) = []) :
    (parse t).All NodeKind.SingleClause := by
  rw [syntaxErrors_eq_nil_iff, parse, faultless_parseTokens_iff] at h
  refine all_parseTokens (fun k cs hk => k.singleClause_of_ne ?_ cs) fun region hregion => ?_
  · rintro rfl
    cases hk
  · have hsolid := h region hregion
    rw [← faultlessEach_regionTrees_dropWhile] at hsolid
    exact ⟨singleClause_regionTrees (h region hregion), singleClause_regionTrees hsolid⟩

end CardQuery
