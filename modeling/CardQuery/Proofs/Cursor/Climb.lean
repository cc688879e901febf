import CardQuery.Cursor.Constraint
import CardQuery.Proofs.Parse.Nesting

/-!
# From a term to its region

The way from a term up to its region passes only clauses and binary nodes, and what is above a
region is known. `Climb` has a case for each step, so what the walk up from a term collects can be
followed by induction.

Main statements: the steps above a term of a text are a climb (`Focus.climb`), and what is known at
a term is what is seen on the climb and what the domain says (`Tree.constraints_of_isTerm`).
-/

set_option autoImplicit false

namespace CardQuery

open CardQuery.Tree (AllOf nodeCount)

/-- The steps above an operand: clauses and binary nodes up to its region, and what is above it. -/
inductive Climb : List Step → Prop
  | program {s : Step} (hs : s.kind = .program) (ho : s.Orderly)
      (hothers : ∀ c ∈ s.others, c.kind?.all NodeKind.isOperand = true) : Climb [s]
  | domain {s p : Step} (hs : s.kind = .domain) (ho : s.Orderly) (hp : p.kind = .program)
      (hpo : p.Orderly) (hqueries : ∀ c ∈ p.others, c.kind?.all (fun j => j = .query) = true) :
      Climb [s, p]
  | queryBody {s q p : Step} (hs : s.kind = .queryBody) (ho : s.Orderly) (hq : q.kind = .query)
      (hqo : q.Orderly) (hbody : ∀ c ∈ q.others, c.isKind .queryBody = false)
      (hp : p.kind = .program) (hpo : p.Orderly)
      (hparts : ∀ c ∈ p.others, c.IsOuterPart)
      (hdomain : p.others.countP (Tree.isKind .domain) ≤ 1) : Climb [s, q, p]
  | clause {s : Step} {above : List Step} (hs : s.kind = .clause) (ho : s.Orderly)
      (h : Climb above) : Climb (s :: above)
  | binary {op : Connective} {s : Step} {above : List Step} (hs : s.kind = .binary op)
      (ho : s.Orderly) (hone : nodeCount s.others ≤ 1) (h : Climb above) : Climb (s :: above)

section Above

variable {t : Tree} {k : NodeKind} {s : Step} {above : List Step}

/-- **The steps above an operand are a climb.** -/
theorem climb_of_orderly (h : (Focus.wholeFrom t above).OrderlyProgram) (hk : t.kind? = some k)
    (hoperand : k.isOperand = true) (htag : above.head?.map Step.kind ≠ some .tag) :
    Climb above := by
  induction above generalizing t k with
  | nil =>
      have hkind : t.kind? = some .program := h.kind
      rw [hk, Option.some.injEq] at hkind
      rw [hkind] at hoperand
      cases hoperand
  | cons s above ih =>
      obtain ⟨hnode, ho⟩ := orderly_fill h.all
      have hwhole : (Focus.wholeFrom (s.fill t) above).OrderlyProgram := h
      have hadmits := admits_of_orderly h.all hk
      have hfill : (s.fill t).kind? = some s.kind := rfl
      cases hs : s.kind with rw [hs] at hfill hadmits
      | program =>
          rw [eq_nil_of_program hwhole.all hfill]
          refine .program hs ho fun c hc => ?_
          rcases hnode.unmixed hs with hall | hnone
          · rcases List.mem_append.1 hc with hc | hc <;> exact hall c (by simp [hc])
          · simpa [hk, hoperand] using hnone t (by simp)
      | domain =>
          obtain ⟨p, rfl, hp, hpo, hqueries⟩ := exists_above_domain hwhole hfill
          exact .domain hs ho hp hpo hqueries
      | queryBody =>
          obtain ⟨q, p, rfl, hq, hqo, hbody, hp, hpo, hparts, hdomain⟩ :=
            exists_above_queryBody hwhole hfill
          exact .queryBody hs ho hq hqo hbody hp hpo hparts hdomain
      | clause =>
          exact .clause hs ho (ih hwhole hfill rfl (head?_ne_tag hwhole.all hfill rfl))
      | binary op =>
          have hcount := hnode.operands op hs
          rw [nodeCount_others hk] at hcount
          exact .binary hs ho (by omega)
            (ih hwhole hfill rfl (head?_ne_tag hwhole.all hfill rfl))
      | tag => exact absurd (by simp [hs]) htag
      | query => cases k <;> simp_all [NodeKind.isOperand, NodeKind.isExpression, NodeKind.admits]
      | _ => cases hadmits

end Above

/-! ## The node that an offset is in -/

namespace Tree

theorem mem_leaves_of_mem_tokensAt {t : Tree} {offset : Nat} {f : Focus}
    (hf : f ∈ t.tokensAt offset) : f ∈ t.leaves := by
  rcases List.mem_append.1 hf with hf | hf
  · exact (List.mem_filter.1 hf).1
  · exact (List.mem_filter.1 hf).1

/-- The node that an offset is in is a part of the tree. -/
theorem whole_of_currentAt? {t : Tree} {offset : Nat} {c : Focus}
    (hc : t.currentAt? offset = some c) : c.whole = t := by
  rw [currentAt?, Option.or_eq_some_iff] at hc
  rcases hc with hterm | ⟨-, hup⟩
  · obtain ⟨f, hf, hfind⟩ := List.exists_of_findSome?_eq_some hterm
    have hmem := List.mem_of_find?_eq_some hfind
    rw [Focus.whole_of_mem_ancestorsFrom hmem]
    exact whole_of_mem_leaves (mem_leaves_of_mem_tokensAt hf)
  · obtain ⟨f, hf, hparent⟩ := List.exists_of_findSome?_eq_some hup
    have hleaf := whole_of_mem_leaves (mem_leaves_of_mem_tokensAt hf)
    rcases f with ⟨tree, start, above⟩
    cases above with
    | nil => cases hparent
    | cons s above =>
        cases hparent
        exact hleaf

end Tree

/-- The kinds of terms. Below a tag, only a tag is one. -/
theorem Focus.exists_kind_of_isTerm {c : Focus} (h : c.isTerm = true) :
    ∃ k, c.tree.kind? = some k ∧ k.isTerm = true ∧ (k ≠ .tag → c.parentKind? ≠ some .tag) := by
  unfold isTerm at h
  split at h
  · next hk => exact ⟨_, hk, rfl, fun hne => absurd rfl hne⟩
  · next hk => exact ⟨_, hk, rfl, fun _ => by simpa using h⟩
  · next hk => exact ⟨_, hk, rfl, fun _ => by simpa using h⟩
  · cases h

theorem NodeKind.isExpression_of_isTerm {k : NodeKind} (h : k.isTerm = true) :
    k.isExpression = true := by
  cases k <;> first | rfl | cases h

/-- A term is an expression. -/
theorem Focus.isExpression_of_isTerm {c : Focus} (h : c.isTerm = true) :
    c.tree.isExpression = true := by
  obtain ⟨k, hk, hterm, -⟩ := exists_kind_of_isTerm h
  rw [Tree.isExpression, hk]
  exact k.isExpression_of_isTerm hterm

/-- **The steps above a term are a climb.** -/
theorem Focus.climb {c : Focus} (h : c.whole.OrderlyProgram) (hc : c.isTerm = true) :
    Climb c.above := by
  obtain ⟨k, hk, hterm, hparent⟩ := exists_kind_of_isTerm hc
  refine climb_of_orderly h hk ?_ ?_
  · rw [NodeKind.isOperand, k.isExpression_of_isTerm hterm]
    rfl
  · by_cases htag : k = .tag
    · exact head?_ne_tag h.all hk (by rw [htag]; rfl)
    · exact hparent htag

/-! ## The walk up -/

section Walk

variable {t : Tree} {s : Step} {above : List Step}

/-- Nothing is seen from a region on. -/
theorem constraintsAbove_fill_of_isRegion (hs : s.kind.isRegion = true) (t : Tree) :
    constraintsAbove (s.fill t) above = .empty := by
  cases above with
  | nil => rfl
  | cons s' above => simp [constraintsAbove, Step.fill, Tree.kind?, hs]

theorem not_isRegion_of_isExpression (ht : t.isExpression = true) :
    t.kind?.any NodeKind.isRegion = false := by
  cases t with
  | token t => rfl
  | node k cs => cases k <;> first | rfl | cases ht

/-- In a region only the siblings are seen. -/
theorem constraintsAbove_region (ht : t.isExpression = true) (hs : s.kind.isRegion = true) :
    constraintsAbove t (s :: above) = .concat (s.siblings.map Tree.classify) := by
  rw [constraintsAbove, if_neg (by simp [not_isRegion_of_isExpression ht]),
    constraintsAbove_fill_of_isRegion hs]
  cases hk : s.kind <;> simp_all [NodeKind.isRegion, Constraints.append_empty]

theorem constraintsAbove_clause (ht : t.isExpression = true) (hs : s.kind = .clause) :
    constraintsAbove t (s :: above) = constraintsAbove (s.fill t) above := by
  rw [constraintsAbove, if_neg (by simp [not_isRegion_of_isExpression ht]), hs]

theorem constraintsAbove_and (ht : t.isExpression = true) (hs : s.kind = .binary .and) :
    constraintsAbove t (s :: above)
      = (Constraints.concat (s.siblings.map Tree.classify)).append
          (constraintsAbove (s.fill t) above) := by
  rw [constraintsAbove, if_neg (by simp [not_isRegion_of_isExpression ht]), hs]

theorem constraintsAbove_or (ht : t.isExpression = true) (hs : s.kind = .binary .or) :
    constraintsAbove t (s :: above)
      = (⟨[], [], s.siblings.flatMap fun c => Constraints.branches c c.classify⟩ :
          Constraints).append (constraintsAbove (s.fill t) above) := by
  rw [constraintsAbove, if_neg (by simp [not_isRegion_of_isExpression ht]), hs]

end Walk

namespace Tree

theorem classifyEach_eq_map (cs : List Tree) :
    classifyEach cs = cs.map fun c => (c, c.classify) := by
  induction cs with
  | nil => simp [classifyEach]
  | cons c cs ih => simp [classifyEach, ih]

/-- An operand that is no expression is an error and says nothing. -/
theorem classify_of_operand {c : Tree} (h : c.kind?.all NodeKind.isOperand = true)
    (hexpr : c.isExpression = false) : c.classify = .empty := by
  cases c with
  | token t => simp [classify]
  | node k cs =>
      cases k <;> simp_all [isExpression, kind?, NodeKind.isExpression, NodeKind.isOperand,
        classify]

/-- What is no expression among operands adds nothing. -/
theorem concat_classify_filter {cs : List Tree}
    (h : ∀ c ∈ cs, c.kind?.all NodeKind.isOperand = true) :
    Constraints.concat ((cs.filter isExpression).map classify)
      = Constraints.concat (cs.map classify) := by
  induction cs with
  | nil => rfl
  | cons c cs ih =>
      obtain ⟨hc, hcs⟩ := List.forall_mem_cons.1 h
      cases hexpr : c.isExpression with
      | true =>
          rw [List.filter_cons_of_pos hexpr, List.map_cons, List.map_cons]
          exact congrArg (Constraints.append c.classify) (ih hcs)
      | false =>
          rw [List.filter_cons_of_neg (by simp [hexpr]), ih hcs, List.map_cons,
            classify_of_operand hc hexpr]
          rfl

/-- A node in which expressions hold together says what these say. -/
theorem classify_of_joins {k : NodeKind} {cs : List Tree} (hk : k.joins? = some .and)
    (hnests : k.Nests cs) :
    (node k cs).classify = Constraints.concat ((cs.filter isExpression).map classify) := by
  have hregion : (((classifyEach cs).filter fun p => p.1.isExpression).map Prod.snd)
      = (cs.filter isExpression).map classify := by
    rw [classifyEach_eq_map, List.filter_map, List.map_map]
    rfl
  have hall : (classifyEach cs).map Prod.snd = cs.map classify := by
    rw [classifyEach_eq_map, List.map_map]
    rfl
  cases k with
  | program | domain | queryBody => rw [classify, hregion]
  | clause => rw [classify, hall, concat_classify_filter hnests]
  | binary op =>
      cases hk
      rw [classify, hall, concat_classify_filter hnests]
  | _ => cases hk

end Tree

/-! ## What is known at a term -/

theorem Focus.any_ancestorsFrom (p : NodeKind → Bool) (t : Tree) (above : List Step) :
    ((ancestorsFrom t above).any fun f => f.tree.kind?.any p) = above.any fun s => p s.kind := by
  induction above generalizing t with
  | nil => rfl
  | cons s above ih => simp only [ancestorsFrom, List.any_cons, ih]; rfl

/-- Whether a place is in a named query. -/
def Focus.inQuery (f : Focus) : Bool :=
  f.above.any fun s => s.kind = .query

namespace Tree

theorem current_constraintsAt (t : Tree) (offset : Nat) :
    (t.constraintsAt offset).current = t.currentAt? offset := by
  unfold constraintsAt
  split <;> next h => exact h.symm

/-- What the domain says, for a place in a query. -/
def sharedWith (t : Tree) (c : Focus) : Constraints :=
  if c.inQuery then (t.domain?.map classify).getD .empty else .empty

/-- At a term the text around it is known, and in a query the domain. -/
theorem constraints_of_isTerm {t : Tree} {offset : Nat} {c : Focus}
    (hc : t.currentAt? offset = some c) (hterm : c.isTerm = true) :
    (t.constraintsAt offset).constraints
      = (constraintsAbove c.tree c.above).append (t.sharedWith c) := by
  obtain ⟨k, hk, hkind, -⟩ := Focus.exists_kind_of_isTerm hterm
  have hself : c.tree.isKind .query = false := by
    rw [isKind, hk]
    cases k <;> simp_all [NodeKind.isTerm]
  have hquery : ((c :: c.ancestors).any fun f => f.tree.isKind .query) = c.inQuery := by
    rw [List.any_cons, hself, Bool.false_or, Focus.inQuery, Focus.ancestors,
      ← Focus.any_ancestorsFrom (fun k => k = .query)]
    congr 1
    funext f
    cases hf : f.tree.kind? <;> simp [isKind, hf]
  have hempty : ∀ k : Constraints, Constraints.empty.append k = k := fun _ => rfl
  simp only [constraintsAt, hc, hterm, hquery, if_true, hempty, sharedWith]

end Tree

end CardQuery
