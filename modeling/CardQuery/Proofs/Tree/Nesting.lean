import CardQuery.Proofs.Tree.Defect
import CardQuery.Tree.Focus

/-!
# What stands in what

A node admits only some kinds of nodes among its children: regions, clauses and binary nodes hold
operands, a tag holds its parts, a program its domain and its queries. A node is *orderly* when its
children are so admitted and not too many.

Main statements: in a tree of orderly nodes a domain stands in the program
(`exists_above_domain`), and the body of a query in its query (`exists_above_queryBody`).
-/

set_option autoImplicit false

namespace CardQuery

open CardQuery.Tree (AllOf nodeCount)

namespace NodeKind

/-- Whether a node can be an operand: an expression, or an error where an expression could be. -/
def isOperand (k : NodeKind) : Bool :=
  k.isExpression || k = .error

/-- Whether a node can be a part of a tag. -/
def isTagPart : NodeKind → Bool
  | .sign | .argument | .operator | .value | .literal _ => true
  | _ => false

/-- Whether a node of the first kind can have a child of the second. -/
def admits : NodeKind → NodeKind → Bool
  | .program, k => k.isOperand || k = .domain || k = .query
  | .domain, k | .queryBody, k | .clause, k | .binary _, k => k.isOperand
  | .query, k => k = .queryName || k = .queryBody
  | .tag, k => k.isTagPart
  | _, _ => false

/-- The connective that joins the expressions in a node. -/
def joins? : NodeKind → Option Connective
  | .program | .domain | .queryBody | .clause => some .and
  | .binary op => some op
  | _ => none

/-- Whether the children of a node are of the kinds that it admits. -/
def Nests (k : NodeKind) (cs : List Tree) : Prop :=
  ∀ c ∈ cs, c.kind?.all k.admits = true

/-- What holds of the children of every node, whatever is wrong with the text. -/
structure Orderly (k : NodeKind) (cs : List Tree) : Prop where
  nests : k.Nests cs
  operands : ∀ op, k = .binary op → nodeCount cs ≤ 2
  unmixed : k = .program → (∀ c ∈ cs, c.kind?.all isOperand = true) ∨
    ∀ c ∈ cs, c.kind?.any isOperand = false
  domain : k = .program → cs.countP (Tree.isKind .domain) ≤ 1
  body : k = .query → cs.countP (Tree.isKind .queryBody) = 1

end NodeKind

/-- Whether a child of a program is no operand: a token, the domain or a query. -/
def Tree.IsOuterPart (t : Tree) : Prop :=
  t.kind?.all (fun k => k = .domain || k = .query) = true

/-! ## The steps above a place -/

namespace Focus

/-- The whole tree around a subtree with these steps above it. -/
def wholeFrom (t : Tree) : List Step → Tree
  | [] => t
  | s :: above => wholeFrom (s.fill t) above

/-- The whole tree that a place is in. -/
def whole (f : Focus) : Tree :=
  wholeFrom f.tree f.above

theorem whole_of_mem_ancestorsFrom {t : Tree} {above : List Step} {f : Focus}
    (hf : f ∈ ancestorsFrom t above) : f.whole = wholeFrom t above := by
  induction above generalizing t with
  | nil => cases hf
  | cons s above ih =>
      rcases List.mem_cons.1 hf with rfl | hf
      · rfl
      · exact ih hf

/-- A property of all nodes of the whole holds for all nodes of a part. -/
theorem all_of_wholeFrom {p : NodeKind → List Tree → Prop} {t : Tree} {above : List Step}
    (h : (wholeFrom t above).All p) : t.All p := by
  induction above generalizing t with
  | nil => exact h
  | cons s above ih =>
      have hfill := ih h
      simp only [Step.fill, Tree.all_node, Tree.allOf_append, Tree.allOf_cons] at hfill
      exact hfill.2.2.1

end Focus

namespace Tree

mutual

theorem whole_of_mem_focusesFrom {above : List Step} {start : Nat} {t : Tree} {f : Focus}
    (hf : f ∈ focusesFrom above start t) : f.whole = Focus.wholeFrom t above := by
  cases t with
  | token t =>
      rw [focusesFrom, List.mem_singleton] at hf
      rw [hf]
      rfl
  | node k cs =>
      rw [focusesFrom, List.mem_cons] at hf
      rcases hf with rfl | hf
      · rfl
      · exact whole_of_mem_focusesOf hf

theorem whole_of_mem_focusesOf {above : List Step} {k : NodeKind} {nodeStart : Nat}
    {before : List Tree} {start : Nat} {cs : List Tree} {f : Focus}
    (hf : f ∈ focusesOf above k nodeStart before start cs) :
    f.whole = Focus.wholeFrom (.node k (before ++ cs)) above := by
  cases cs with
  | nil => cases hf
  | cons c cs =>
      rw [focusesOf, List.mem_append] at hf
      rcases hf with hf | hf
      · rw [whole_of_mem_focusesFrom hf]
        rfl
      · rw [whole_of_mem_focusesOf hf, List.append_assoc]
        rfl

end

theorem all_of_child? {p : NodeKind → List Tree → Prop} {t c : Tree} {k : NodeKind} (h : t.All p)
    (hc : t.child? k = some c) : c.All p := by
  cases t with
  | token t => cases hc
  | node j cs =>
      rw [all_node] at h
      exact allOf_iff_forall.1 h.2 c (List.mem_of_find?_eq_some hc)

theorem whole_of_mem_leaves {t : Tree} {f : Focus} (hf : f ∈ t.leaves) : f.whole = t :=
  whole_of_mem_focusesFrom (List.mem_filter.1 hf).1

end Tree

/-! ## What is around a child -/

/-- The other children of the parent. -/
def Step.others (s : Step) : List Tree :=
  s.before ++ s.after

/-- What holds of the children beside a child, whatever stands in its place. -/
structure Step.Orderly (s : Step) : Prop where
  nests : s.kind.Nests s.others
  others : AllOf NodeKind.Orderly s.others

theorem Step.siblings_eq (s : Step) : s.siblings = s.others.filter Tree.isExpression :=
  (List.filter_append ..).symm

namespace NodeKind

theorem not_admits_program (k : NodeKind) : k.admits .program = false := by
  cases k <;> rfl

theorem eq_program_of_admits_domain {k : NodeKind} (h : k.admits .domain = true) :
    k = .program := by
  cases k <;> first | rfl | cases h

theorem eq_program_of_admits_query {k : NodeKind} (h : k.admits .query = true) :
    k = .program := by
  cases k <;> first | rfl | cases h

theorem eq_query_of_admits_queryBody {k : NodeKind} (h : k.admits .queryBody = true) :
    k = .query := by
  cases k <;> first | rfl | cases h

end NodeKind

/-- The tree of a whole text whose nodes are orderly. -/
structure Tree.OrderlyProgram (t : Tree) : Prop where
  kind : t.kind? = some .program
  all : t.All NodeKind.Orderly

section Above

variable {t : Tree} {k : NodeKind} {s : Step} {above : List Step}

/-- What is known of the node around a child, with the child and without it. -/
theorem orderly_fill (h : (Focus.wholeFrom t (s :: above)).All NodeKind.Orderly) :
    s.kind.Orderly (s.before ++ t :: s.after) ∧ s.Orderly := by
  have hwhole : (Focus.wholeFrom (s.fill t) above).All NodeKind.Orderly := h
  have hfill := Focus.all_of_wholeFrom hwhole
  simp only [Step.fill, Tree.all_node, Tree.allOf_append, Tree.allOf_cons] at hfill
  obtain ⟨hnode, hbefore, -, hafter⟩ := hfill
  refine ⟨hnode, fun c hc => hnode.nests c ?_, ?_⟩
  · rcases List.mem_append.1 hc with hc | hc <;> simp [hc]
  · rw [Step.others, Tree.allOf_append]
    exact ⟨hbefore, hafter⟩

theorem admits_of_orderly (h : (Focus.wholeFrom t (s :: above)).All NodeKind.Orderly)
    (hk : t.kind? = some k) : s.kind.admits k = true := by
  simpa [hk] using (orderly_fill h).1.nests t (by simp)

/-- Nothing is above a program. -/
theorem eq_nil_of_program (h : (Focus.wholeFrom t above).All NodeKind.Orderly)
    (hk : t.kind? = some .program) : above = [] := by
  cases above with
  | nil => rfl
  | cons s above =>
      have hadmits := admits_of_orderly h hk
      rw [s.kind.not_admits_program] at hadmits
      cases hadmits

theorem countP_others {j : NodeKind} (hk : t.kind? = some j) :
    (s.before ++ t :: s.after).countP (Tree.isKind j) = s.others.countP (Tree.isKind j) + 1 := by
  simp [Step.others, List.countP_append, Tree.isKind, hk]
  omega

theorem nodeCount_others (hk : t.kind? = some k) :
    nodeCount (s.before ++ t :: s.after) = nodeCount s.others + 1 := by
  cases t with
  | token t => cases hk
  | node k cs =>
      rw [Tree.nodeCount_append, Tree.nodeCount_cons_node, Step.others, Tree.nodeCount_append]
      omega

/-- Above a node that only one kind admits is a node of that kind. -/
theorem exists_parent {j : NodeKind} (h : (Focus.wholeFrom t above).OrderlyProgram)
    (hk : t.kind? = some k) (hne : k ≠ .program)
    (honly : ∀ i : NodeKind, i.admits k = true → i = j) :
    ∃ s rest, above = s :: rest ∧ s.kind = j := by
  cases above with
  | nil =>
      have hkind : t.kind? = some .program := h.kind
      rw [hk, Option.some.injEq] at hkind
      exact absurd hkind hne
  | cons s rest => exact ⟨s, rest, rfl, honly _ (admits_of_orderly h.all hk)⟩

/-- The children of a program beside its domain or a query are such parts too. -/
theorem isPart_of_mem_others (h : s.kind.Orderly (s.before ++ t :: s.after))
    (hs : s.kind = .program) (hk : t.kind? = some k) (hnot : k.isOperand = false) :
    ∀ c ∈ s.others, c.IsOuterPart := by
  intro c hc
  have hmem : c ∈ s.before ++ t :: s.after := by
    rcases List.mem_append.1 hc with hc | hc <;> simp [hc]
  rcases h.unmixed hs with hall | hnone
  · simpa [hk, hnot] using hall t (by simp)
  · have hadmits := h.nests c hmem
    have hoperand := hnone c hmem
    rw [Tree.IsOuterPart]
    cases hj : c.kind? with
    | none => rfl
    | some j =>
        rw [hj] at hadmits hoperand
        have hnot : j.isOperand = false := hoperand
        simpa [hs, NodeKind.admits, hnot] using hadmits

theorem exists_above_domain (h : (Focus.wholeFrom t above).OrderlyProgram)
    (hk : t.kind? = some .domain) :
    ∃ p, above = [p] ∧ p.kind = .program ∧ p.Orderly ∧
      ∀ c ∈ p.others, c.kind?.all (fun j => j = .query) = true := by
  obtain ⟨p, rest, rfl, hp⟩ := exists_parent h hk (by decide)
    fun _ => NodeKind.eq_program_of_admits_domain
  obtain ⟨hnode, hpo⟩ := orderly_fill h.all
  have hparts := isPart_of_mem_others hnode hp hk rfl
  have hcount := hnode.domain hp
  rw [countP_others hk] at hcount
  have hnone : p.others.countP (Tree.isKind .domain) = 0 := by omega
  have htop : rest = [] := eq_nil_of_program (t := p.fill t) h.all (by rw [← hp]; rfl)
  refine ⟨p, by rw [htop], hp, hpo, fun c hc => ?_⟩
  have hpart := hparts c hc
  have hdomain := List.countP_eq_zero.1 hnone c hc
  rw [Tree.IsOuterPart] at hpart
  cases hj : c.kind? with
  | none => rfl
  | some j =>
      rw [hj] at hpart
      have hne : j ≠ .domain := by simpa [Tree.isKind, hj] using hdomain
      simpa [hne] using hpart

theorem exists_above_queryBody (h : (Focus.wholeFrom t above).OrderlyProgram)
    (hk : t.kind? = some .queryBody) :
    ∃ q p, above = [q, p] ∧ q.kind = .query ∧ q.Orderly ∧
      (∀ c ∈ q.others, c.isKind .queryBody = false) ∧ p.kind = .program ∧ p.Orderly ∧
      (∀ c ∈ p.others, c.IsOuterPart) ∧
      p.others.countP (Tree.isKind .domain) ≤ 1 := by
  obtain ⟨q, rest, rfl, hq⟩ := exists_parent h hk (by decide)
    fun _ => NodeKind.eq_query_of_admits_queryBody
  obtain ⟨hquery, hqo⟩ := orderly_fill h.all
  have hbody := hquery.body hq
  rw [countP_others hk] at hbody
  have hnone : q.others.countP (Tree.isKind .queryBody) = 0 := by omega
  have hwhole : (Focus.wholeFrom (q.fill t) rest).OrderlyProgram := h
  have hfill : (q.fill t).kind? = some .query := by rw [← hq]; rfl
  obtain ⟨p, rest, rfl, hp⟩ := exists_parent hwhole hfill (by decide)
    fun _ => NodeKind.eq_program_of_admits_query
  obtain ⟨hprogram, hpo⟩ := orderly_fill hwhole.all
  have hdomain := hprogram.domain hp
  have hothers : p.others.countP (Tree.isKind .domain)
      ≤ (p.before ++ q.fill t :: p.after).countP (Tree.isKind .domain) := by
    simp only [Step.others, List.countP_append, List.countP_cons]
    omega
  have htop : rest = [] :=
    eq_nil_of_program (t := p.fill (q.fill t)) hwhole.all (by rw [← hp]; rfl)
  exact ⟨q, p, by rw [htop], hq, hqo, by simpa using List.countP_eq_zero.1 hnone, hp, hpo,
    isPart_of_mem_others hprogram hp hfill rfl, by omega⟩

theorem head?_ne_tag (h : (Focus.wholeFrom t above).All NodeKind.Orderly) (hk : t.kind? = some k)
    (hpart : k.isTagPart = false) : above.head?.map Step.kind ≠ some .tag := by
  cases above with
  | nil => simp
  | cons s above =>
      have hadmits := admits_of_orderly h hk
      intro htag
      rw [List.head?_cons, Option.map_some, Option.some.injEq] at htag
      rw [htag, NodeKind.admits, hpart] at hadmits
      cases hadmits

end Above

end CardQuery
