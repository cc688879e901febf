import CardQuery.Proofs.Cursor.Climb
import CardQuery.Proofs.Expr.Truth

/-!
# What is decided at a position is no choice

A tag that the text around a term requires or forbids adds nothing there. Whatever holds of a
card, the query with the tag in place of the term says the same as the query with a truth in its
place: a required tag counts as true and a forbidden one as false.

The proof goes up from the term to its region. Each step makes of the truth of a child the truth of
its parent (`exists_truth_fill`), and when a sibling at an `and` fails, the child no longer counts.

Main statement: `Tree.constraintsAt_sound`.
-/

set_option autoImplicit false

namespace CardQuery

open CardQuery.Tree (AllOf nodeCount)

variable {v : Valuation}

/-! ## The tags around a position -/

namespace Constraints

/-- Whether the tags agree with a valuation. -/
def Hold (v : Valuation) (k : Constraints) : Prop :=
  (∀ t ∈ k.required, v t = true) ∧ ∀ t ∈ k.forbidden, v t = false

theorem hold_empty : empty.Hold v := by
  simp [Hold, empty]

theorem hold_append {a b : Constraints} : (a.append b).Hold v ↔ a.Hold v ∧ b.Hold v := by
  simp only [Hold, append, List.forall_mem_append]
  tauto

theorem hold_concat {parts : List Constraints} :
    (concat parts).Hold v ↔ ∀ k ∈ parts, k.Hold v := by
  induction parts with
  | nil => simp [concat, hold_empty]
  | cons k parts ih =>
      rw [concat_cons, hold_append, ih, List.forall_mem_cons]

/-- The tag of a term agrees with a valuation unless the term fails. -/
theorem hold_ofTerm {t : Tree} (h : (QueryTag.ofTerm? t).map (QueryTag.holds v) ≠ some false) :
    (ofTerm t).Hold v := by
  unfold ofTerm
  split
  · exact hold_empty
  · next tag htag =>
      rw [htag, Option.map_some, ne_eq, Option.some.injEq, Bool.not_eq_false] at h
      unfold QueryTag.holds at h
      split
      · next hsign => simpa [Hold, hsign] using h
      · next hsign =>
          have hpositive := QueryTag.positive_of_unsigned (Bool.not_eq_true _ ▸ hsign)
          simpa [Hold, hsign, hpositive] using h

end Constraints

namespace Tree

mutual

/-- **What a subtree says agrees with a valuation unless the subtree fails.** -/
theorem hold_classify {t : Tree} (h : t.All NodeKind.Orderly) (ht : t.truth? v ≠ some false) :
    t.classify.Hold v := by
  cases t with
  | token t =>
      rw [classify]
      exact Constraints.hold_empty
  | node k cs =>
      rw [all_node] at h
      obtain ⟨hnode, hcs⟩ := h
      have hjoined : k.joins? = some .and → (node k cs).classify.Hold v := by
        intro hk
        rw [classify_of_joins hk hnode.nests, Constraints.hold_concat]
        intro part hpart
        obtain ⟨c, hc, rfl⟩ := List.mem_map.1 hpart
        refine hold_classifyEach hcs c (List.mem_filter.1 hc).1 fun hfails => ht ?_
        rw [truth?_of_joins hk hnode.operands]
        exact Connective.join_and_of_mem (List.mem_map.2 ⟨c, hc, hfails⟩)
      have hterm : (node k cs).expr? = (QueryTag.ofTerm? (node k cs)).map .tag →
          (Constraints.ofTerm (node k cs)).Hold v := by
        intro hexpr
        refine Constraints.hold_ofTerm fun hfails => ht ?_
        rw [truth?, hexpr, Option.map_map]
        exact hfails
      cases k with
      | program | domain | queryBody | clause => exact hjoined rfl
      | tag | argument | literal k =>
          simpa only [classify] using hterm (by simp [expr?, kind?, lower])
      | binary op =>
          cases op with
          | and => exact hjoined rfl
          | or => simp [classify, Constraints.Hold]
      | _ => simp [classify, Constraints.hold_empty]

theorem hold_classifyEach {cs : List Tree} (h : AllOf NodeKind.Orderly cs) :
    ∀ c ∈ cs, c.truth? v ≠ some false → c.classify.Hold v := by
  cases cs with
  | nil => simp
  | cons c cs =>
      rw [allOf_cons] at h
      exact List.forall_mem_cons.2 ⟨hold_classify h.1, hold_classifyEach h.2⟩

end

end Tree

/-! ## What is asked around a place -/

/-- What is asked when `x` stands below these steps: the query around it together with the domain,
or outside queries the region around it. -/
def Focus.askedFrom (domain : Option Expr) (x : Tree) (above : List Step) : Option Expr :=
  match (ancestorsFrom x above).find? fun f => f.tree.isKind .query with
  | some query => Expr.combine? .and query.tree.expr? domain
  | none =>
    ((ancestorsFrom x above).find? fun f => f.tree.kind?.any NodeKind.isRegion).bind
      fun f => f.tree.expr?

section Climb

variable {domain : Option Expr} {x : Tree} {s : Step} {above : List Step}

/-- Below the region, a step up puts the child into its parent. -/
theorem askedFrom_cons (hquery : s.kind ≠ .query) (hregion : s.kind.isRegion = false) :
    Focus.askedFrom domain x (s :: above) = Focus.askedFrom domain (s.fill x) above := by
  simp [Focus.askedFrom, Focus.ancestorsFrom, Step.fill, Tree.isKind, Tree.kind?, hquery, hregion]

theorem askedFrom_program (hs : s.kind = .program) :
    Focus.askedFrom domain x [s] = (s.fill x).expr? := by
  simp [Focus.askedFrom, Focus.ancestorsFrom, Step.fill, Tree.isKind, Tree.kind?, hs,
    NodeKind.isRegion]

theorem askedFrom_domain {p : Step} (hs : s.kind = .domain) (hp : p.kind = .program) :
    Focus.askedFrom domain x [s, p] = (s.fill x).expr? := by
  have hnone : (Focus.ancestorsFrom x [s, p]).find? (fun f => f.tree.isKind .query) = none := by
    simp [Focus.ancestorsFrom, Step.fill, Tree.isKind, hs, hp]
  have hregion : ((s.fill x).kind?.any NodeKind.isRegion) = true := by
    rw [Step.fill, hs]
    rfl
  rw [Focus.askedFrom, hnone]
  show Option.bind (List.find? _ (_ :: _)) _ = _
  rw [List.find?_cons_of_pos (by exact hregion), Option.bind_some]

theorem askedFrom_queryBody {q : Step} (hs : s.kind = .queryBody) (hq : q.kind = .query)
    (hbody : ∀ c ∈ q.others, c.isKind .queryBody = false) :
    Focus.askedFrom domain x (s :: q :: above)
      = Expr.combine? .and (s.fill x).expr? domain := by
  have hfound : (q.fill (s.fill x)).queryBody? = some (s.fill x) := by
    have hbefore : q.before.find? (Tree.isKind .queryBody) = none := by
      rw [List.find?_eq_none]
      intro c hc
      simp [hbody c (List.mem_append_left _ hc)]
    have hhead : (s.fill x).isKind .queryBody = true := by
      rw [Step.fill, hs]
      rfl
    rw [Tree.queryBody?, Tree.child?, Step.fill, Tree.children, List.find?_append, hbefore,
      List.find?_cons_of_pos hhead]
    rfl
  have hquery : (q.fill (s.fill x)).expr? = (s.fill x).expr? := by
    have hbind : (q.fill (s.fill x)).expr?
        = (q.fill (s.fill x)).queryBody?.bind Tree.lowerRegion := by
      rw [Step.fill, hq]
      rfl
    rw [hbind, hfound, Step.fill, hs]
    rfl
  have hfind : (Focus.ancestorsFrom x (s :: q :: above)).find? (fun f => f.tree.isKind .query)
      = some ⟨q.fill (s.fill x), q.start, above⟩ := by
    simp [Focus.ancestorsFrom, Step.fill, Tree.isKind, Tree.kind?, hs, hq]
  simp only [Focus.askedFrom, hfind, hquery]

/-- **The truth of a parent is made of the truth of a child**, and does not depend on it when a
sibling that holds together with it fails. -/
theorem exists_truth_fill {op : Connective} (hop : s.kind.joins? = some op) (ho : s.Orderly)
    (hone : ∀ op, s.kind = .binary op → nodeCount s.others ≤ 1) :
    ∃ f : Bool → Bool,
      (∀ x b, x.isExpression = true → x.truth? v = some b → (s.fill x).truth? v = some (f b)) ∧
      (op = .and → ¬ (Constraints.concat (s.siblings.map Tree.classify)).Hold v →
        ∀ a b, f a = f b) := by
  obtain ⟨f, hf⟩ := op.exists_merge (op.join (Tree.truths v s.before))
    (op.join (Tree.truths v s.after))
  have hjoin : ∀ b, op.join (Tree.truths v s.before ++ some b :: Tree.truths v s.after)
      = some (f b) := by
    intro b
    rw [Connective.join_append, Connective.join_cons, hf]
  refine ⟨f, ?_, ?_⟩
  · intro x b hx htruth
    have hcount : ∀ op, s.kind = .binary op → nodeCount (s.before ++ x :: s.after) ≤ 2 := by
      intro op hbinary
      have hbeside := hone op hbinary
      cases x with
      | token t => cases hx
      | node k cs =>
          rw [nodeCount_others (k := k) rfl]
          omega
    rw [Step.fill, Tree.truth?_of_joins hop hcount, Tree.truths_append, Tree.truths_cons hx, htruth,
      hjoin]
  · rintro rfl hfails
    have hfalse : some false ∈ Tree.truths v s.others := by
      by_contra hnone
      refine hfails (Constraints.hold_concat.2 fun part hpart => ?_)
      obtain ⟨c, hc, rfl⟩ := List.mem_map.1 hpart
      rw [Step.siblings_eq] at hc
      refine Tree.hold_classifyEach ho.others c (List.mem_filter.1 hc).1 fun hc' => hnone ?_
      exact List.mem_map.2 ⟨c, hc, hc'⟩
    have hconst : ∀ b, f b = false := by
      intro b
      have hmem : some false ∈ Tree.truths v s.before ++ some b :: Tree.truths v s.after := by
        rw [Step.others, Tree.truths_append, List.mem_append] at hfalse
        rw [List.mem_append, List.mem_cons]
        tauto
      have hb := (hjoin b).symm.trans (Connective.join_and_of_mem hmem)
      exact Option.some.inj hb
    intro a b
    rw [hconst, hconst]

/-- How what is asked above depends on the truth of what stands below some steps: by `g`, which is
constant when the tags around or the domain are against the valuation. -/
structure Asked (v : Valuation) (domain : Option Expr) (above : List Step) (around : Constraints)
    (g : Bool → Bool) : Prop where
  truth : ∀ x b, x.isExpression = true → x.truth? v = some b →
    (Focus.askedFrom domain x above).map (Expr.holds v) = some (g b)
  around : ¬ around.Hold v → ∀ a b, g a = g b
  shared : above.any (fun s => s.kind = .query) = true →
    domain.map (Expr.holds v) = some false → ∀ a b, g a = g b

/-- In a region the siblings are all that counts. -/
theorem exists_truth_region (hs : s.kind.isRegion = true) (ho : s.Orderly) {t : Tree}
    (ht : t.isExpression = true) :
    ∃ f : Bool → Bool,
      (∀ x b, x.isExpression = true → x.truth? v = some b → (s.fill x).truth? v = some (f b)) ∧
      (¬ (constraintsAbove t (s :: above)).Hold v → ∀ a b, f a = f b) := by
  have hop : s.kind.joins? = some .and := by
    cases hk : s.kind <;> first | rfl | (rw [hk] at hs; cases hs)
  have hone : ∀ op, s.kind = .binary op → nodeCount s.others ≤ 1 := by
    intro op hk
    rw [hk] at hs
    cases hs
  obtain ⟨f, hf, hfails⟩ := exists_truth_fill (v := v) hop ho hone
  refine ⟨f, hf, fun hnot => hfails rfl fun hold => hnot ?_⟩
  rwa [constraintsAbove_region ht hs]

/-- A step up to a clause or a binary node, from which on the dependence is known. -/
theorem Asked.step {op : Connective} (hop : s.kind.joins? = some op) (ho : s.Orderly)
    (hone : ∀ op, s.kind = .binary op → nodeCount s.others ≤ 1)
    (hexpr : s.kind.isExpression = true) {around outer : Constraints} {g : Bool → Bool}
    (hg : Asked v domain above outer g)
    (haround : (op = .and → (Constraints.concat (s.siblings.map Tree.classify)).Hold v) →
      outer.Hold v → around.Hold v) :
    ∃ f, Asked v domain (s :: above) around (g ∘ f) := by
  obtain ⟨f, hf, hfails⟩ := exists_truth_fill (v := v) hop ho hone
  have hquery : s.kind ≠ .query := by
    intro hk
    rw [hk] at hexpr
    cases hexpr
  have hregion : s.kind.isRegion = false := by
    cases hk : s.kind <;> first | rfl | (rw [hk] at hexpr; cases hexpr)
  refine ⟨f, ⟨fun x b hx htruth => ?_, fun hnot a b => ?_, fun hin hdomain a b => ?_⟩⟩
  · rw [askedFrom_cons hquery hregion]
    exact hg.truth (s.fill x) (f b) hexpr (hf x b hx htruth)
  · by_cases houter : outer.Hold v
    · have hsiblings : ¬ (op = .and →
          (Constraints.concat (s.siblings.map Tree.classify)).Hold v) :=
        fun hold => hnot (haround hold houter)
      rw [Classical.not_imp] at hsiblings
      exact congrArg g (hfails hsiblings.1 hsiblings.2 a b)
    · exact hg.around houter (f a) (f b)
  · exact hg.shared (by simpa [hquery] using hin) hdomain (f a) (f b)

/-- **What is asked around a place is made of the truth of what stands there**, and does not
depend on it when a tag around the place is against the valuation. -/
theorem Climb.exists_asked (h : Climb above) {t : Tree} (ht : t.isExpression = true) :
    ∃ g, Asked v domain above (constraintsAbove t above) g := by
  induction h generalizing t with
  | @program s hs ho hothers =>
      obtain ⟨f, hf, hfails⟩ := exists_truth_region (v := v) (by rw [hs]; rfl) ho ht
      refine ⟨f, ⟨fun x b hx htruth => ?_, hfails, by simp [hs]⟩⟩
      rw [askedFrom_program hs]
      exact hf x b hx htruth
  | @domain s p hs ho hp hpo hqueries =>
      obtain ⟨f, hf, hfails⟩ := exists_truth_region (v := v) (by rw [hs]; rfl) ho ht
      refine ⟨f, ⟨fun x b hx htruth => ?_, hfails, by simp [hs, hp]⟩⟩
      rw [askedFrom_domain hs hp]
      exact hf x b hx htruth
  | @queryBody s q p hs ho hq hqo hbody hp hpo hparts hdomain =>
      obtain ⟨f, hf, hfails⟩ := exists_truth_region (v := v) (by rw [hs]; rfl) ho ht
      obtain ⟨g, hg⟩ := Connective.and.exists_merge none (domain.map (Expr.holds v))
      simp only [Option.merge_none_left] at hg
      refine ⟨g ∘ f, ⟨fun x b hx htruth => ?_, fun hnot a b => ?_, fun _ hfalse a b => ?_⟩⟩
      · have hx' : (s.fill x).expr?.map (Expr.holds v) = some (f b) := hf x b hx htruth
        rw [askedFrom_queryBody hs hq hbody, Expr.map_holds_combine?, hx', hg]
        rfl
      · exact congrArg g (hfails hnot a b)
      · have hconst : ∀ b, g b = false := by
          intro b
          have hb := hg b
          rw [hfalse] at hb
          cases b <;> exact (Option.some.inj hb).symm
        simp only [Function.comp_apply, hconst]
  | @clause s above hs ho h ih =>
      obtain ⟨g, hg⟩ := ih (t := s.fill t) (by rw [Step.fill, hs]; rfl)
      have hop : s.kind.joins? = some .and := by rw [hs]; rfl
      obtain ⟨f, hf⟩ := hg.step hop ho (by simp [hs]) (by rw [hs]; rfl) fun _ => id
      rw [← constraintsAbove_clause ht hs] at hf
      exact ⟨_, hf⟩
  | @binary op s above hs ho hone h ih =>
      obtain ⟨g, hg⟩ := ih (t := s.fill t) (by rw [Step.fill, hs]; rfl)
      have haround : (op = .and → (Constraints.concat (s.siblings.map Tree.classify)).Hold v) →
          (constraintsAbove (s.fill t) above).Hold v →
          (constraintsAbove t (s :: above)).Hold v := by
        intro hsiblings hrest
        cases op with
        | and =>
            rw [constraintsAbove_and ht hs, Constraints.hold_append]
            exact ⟨hsiblings rfl, hrest⟩
        | or =>
            rw [constraintsAbove_or ht hs, Constraints.hold_append]
            exact ⟨by simp [Constraints.Hold], hrest⟩
      obtain ⟨f, hf⟩ := hg.step (by rw [hs]; rfl) ho (fun _ _ => hone) (by rw [hs]; rfl) haround
      exact ⟨_, hf⟩

end Climb

/-! ## Trees that stand for expressions -/

/-- A tree that stands for a tag. -/
def QueryTag.tree (t : QueryTag) : Tree :=
  .node .tag (t.sign.toList.map (fun s => .leaf .sign ⟨.minus, s⟩) ++
    [.leaf .argument ⟨.word, t.argument⟩, .leaf .operator ⟨.comparison .colon, t.operator⟩,
      .leaf .value ⟨.word, t.value⟩])

namespace Expr

/-- A tree that stands for an expression. -/
def tree : Expr → Tree
  | .tag t => t.tree
  | .binary op l r => .node (.binary op) [l.tree, r.tree]
  | .clause e => .node .clause [e.tree]

theorem ofTerm?_tree (t : QueryTag) : QueryTag.ofTerm? t.tree = some t := by
  rcases t with ⟨_ | s, a, op, value⟩ <;>
    simp [QueryTag.tree, QueryTag.ofTerm?, Tree.leaf, Tree.kind?, Tree.sign?, Tree.argument?,
      Tree.operator?, Tree.value?, Tree.child?, Tree.children, Tree.isKind, NodeKind.isTagValue,
      Tree.text, tokensText]

theorem isExpression_tree (e : Expr) : e.tree.isExpression = true := by
  cases e <;> rfl

theorem lower_tree (e : Expr) : e.tree.lower = some e := by
  induction e with
  | tag t =>
      have hlower : t.tree.lower = (QueryTag.ofTerm? t.tree).map .tag := by
        rw [QueryTag.tree, Tree.lower]
      rw [tree, hlower, ofTerm?_tree]
      rfl
  | binary op l r ihl ihr =>
      simp [tree, Tree.lower, Tree.lowerEach, isExpression_tree, ihl, ihr, combine?]
  | clause e ih =>
      simp [tree, Tree.lower, Tree.lowerEach, isExpression_tree, ih, all?, chain]

theorem truth?_tree (e : Expr) : e.tree.truth? v = some (e.holds v) := by
  rw [Tree.truth?, Tree.expr?_of_isExpression e.isExpression_tree, lower_tree]
  rfl

end Expr

/-! ## What a tag adds at a place -/

namespace Focus

/-- What is asked around a place when an expression stands there. -/
def askedWith (c : Focus) (e : Expr) : Option Expr :=
  askedFrom (c.whole.domain?.bind Tree.expr?) e.tree c.above

/-- Whether that holds. -/
def truthWith (v : Valuation) (c : Focus) (e : Expr) : Option Bool :=
  (c.askedWith e).map (Expr.holds v)

/-- Whether an expression at a place counts as one that always holds. -/
def Redundant (c : Focus) (e : Expr) : Prop :=
  ∀ v, c.truthWith v e = c.truthWith v (.constant true)

/-- Whether an expression at a place counts as one that never holds. -/
def Contradictory (c : Focus) (e : Expr) : Prop :=
  ∀ v, c.truthWith v e = c.truthWith v (.constant false)

/-- What is asked around a term is made of the truth of what stands there, and does not depend on
it when a tag that is known there is against the valuation. -/
theorem exists_truthWith (v : Valuation) {t : Tree} (ht : t.OrderlyProgram) {offset : Nat}
    {c : Focus} (hc : t.currentAt? offset = some c) (hterm : c.isTerm = true) :
    ∃ g : Bool → Bool, (∀ e, c.truthWith v e = some (g (e.holds v))) ∧
      (¬ (t.constraintsAt offset).constraints.Hold v → ∀ a b, g a = g b) := by
  have hwhole := Tree.whole_of_currentAt? hc
  have hclimb : Climb c.above := Focus.climb (hwhole ▸ ht) hterm
  obtain ⟨g, hg⟩ : ∃ g, Asked v (t.domain?.bind Tree.expr?) c.above
      (constraintsAbove c.tree c.above) g := hclimb.exists_asked (isExpression_of_isTerm hterm)
  refine ⟨g, fun e => ?_, fun hnot => ?_⟩
  · rw [truthWith, askedWith, hwhole]
    exact hg.truth e.tree (e.holds v) e.isExpression_tree e.truth?_tree
  · rw [Tree.constraints_of_isTerm hc hterm, Constraints.hold_append, not_and_or] at hnot
    rcases hnot with haround | hshared
    · exact hg.around haround
    · -- the domain counts in queries only, and there it is a part of what is asked
      unfold Tree.sharedWith at hshared
      split at hshared
      · next hin =>
          refine hg.shared hin ?_
          cases hd : t.domain? with
          | none =>
              rw [hd] at hshared
              exact absurd Constraints.hold_empty hshared
          | some d =>
              rw [hd] at hshared
              by_contra hfails
              exact hshared (Tree.hold_classify (Tree.all_of_child? ht.all hd) hfails)
      · exact absurd Constraints.hold_empty hshared

/-- What follows from the tags that are known at a term counts as always or as never holding. -/
theorem truthWith_eq_constant {t : Tree} (ht : t.OrderlyProgram) {offset : Nat} {c : Focus}
    (hc : t.currentAt? offset = some c) (hterm : c.isTerm = true) {e : Expr} {b : Bool}
    (h : ∀ v, (t.constraintsAt offset).constraints.Hold v → e.holds v = b) (v : Valuation) :
    c.truthWith v e = c.truthWith v (.constant b) := by
  obtain ⟨g, hg, hconst⟩ := exists_truthWith v ht hc hterm
  rw [hg, hg, Expr.holds_constant]
  by_cases hold : (t.constraintsAt offset).constraints.Hold v
  · rw [h v hold]
  · rw [hconst hold (e.holds v) b]

end Focus

namespace QueryTag

theorem holds_of_unsigned {p : QueryTag} (hp : p.isNegated = false) : p.holds v = v p := by
  simp [holds, hp, positive_of_unsigned hp]

theorem holds_negated {p : QueryTag} (hp : p.isNegated = false) : p.negated.holds v = !v p := by
  have hpositive : p.negated.positive = p.positive := rfl
  have hsign : p.negated.isNegated = true := rfl
  rw [holds, if_pos hsign, hpositive, positive_of_unsigned hp]

end QueryTag

/-- **Only tags that add nothing are dropped.** -/
theorem Tree.constraintsAt_sound (t : Text) (offset : Nat) {c : Focus}
    (hc : ((parse t).constraintsAt offset).current = some c) (hterm : c.isTerm = true) :
    let known := ((parse t).constraintsAt offset).constraints
    (∀ v e, (c.truthWith v e).isSome) ∧
    (∀ p : QueryTag, p.isNegated = false → p ∈ known.required →
      c.Redundant (.tag p) ∧ c.Contradictory (.tag p.negated)) ∧
    (∀ p : QueryTag, p.isNegated = false → p ∈ known.forbidden →
      c.Contradictory (.tag p) ∧ c.Redundant (.tag p.negated)) ∧
    ∀ candidates, ∀ d ∈ candidates, d ∉ (parse t).undecidedAt offset candidates →
      c.Redundant (.tag d) ∨ c.Contradictory (.tag d) := by
  have horder := orderlyProgram_parse t
  rw [Tree.current_constraintsAt] at hc
  intro known
  refine ⟨fun v e => ?_, fun p hp hmem => ?_, fun p hp hmem => ?_, fun candidates d hd hdrop => ?_⟩
  · obtain ⟨g, hg, -⟩ := Focus.exists_truthWith v horder hc hterm
    rw [hg]
    rfl
  · have hholds : ∀ v, known.Hold v → v p = true := fun v hold => hold.1 p hmem
    constructor
    · refine Focus.truthWith_eq_constant horder hc hterm fun v hold => ?_
      rw [Expr.holds, QueryTag.holds_of_unsigned hp, hholds v hold]
    · refine Focus.truthWith_eq_constant horder hc hterm fun v hold => ?_
      rw [Expr.holds, QueryTag.holds_negated hp, hholds v hold]
      rfl
  · have hfails : ∀ v, known.Hold v → v p = false := fun v hold => hold.2 p hmem
    constructor
    · refine Focus.truthWith_eq_constant horder hc hterm fun v hold => ?_
      rw [Expr.holds, QueryTag.holds_of_unsigned hp, hfails v hold]
    · refine Focus.truthWith_eq_constant horder hc hterm fun v hold => ?_
      rw [Expr.holds, QueryTag.holds_negated hp, hfails v hold]
      rfl
  · have hdecided : known.decides d = true := by
      by_contra hnot
      exact hdrop (List.mem_filter.2 ⟨hd, by simpa using hnot⟩)
    -- a dropped candidate has the truth that its positive form is known to have, or the opposite
    obtain ⟨b, hb⟩ : ∃ b, ∀ v, known.Hold v → v d.positive = b := by
      rw [Constraints.decides, Bool.or_eq_true, List.contains_iff_mem, List.contains_iff_mem]
        at hdecided
      rcases hdecided with hmem | hmem
      · exact ⟨true, fun v hold => hold.1 _ hmem⟩
      · exact ⟨false, fun v hold => hold.2 _ hmem⟩
    have hcounts := Focus.truthWith_eq_constant (e := .tag d) (b := if d.isNegated then !b else b)
      horder hc hterm fun v hold => by rw [Expr.holds, QueryTag.holds, hb v hold]
    cases hvalue : if d.isNegated then !b else b with rw [hvalue] at hcounts
    | true => exact Or.inl hcounts
    | false => exact Or.inr hcounts

/-- In an operand of `or`, beside a tag and below a domain that forbids another. -/
theorem Tree.constraintsAt_sound_in_query :
    ∃ c, ((parse "-c:u\nq: t:elf (o:a or -o:b)".toList).constraintsAt 16).current = some c ∧
      c.isTerm = true ∧ c.Redundant (.tag ⟨none, ['t'], [':'], ['e', 'l', 'f']⟩) ∧
      c.Contradictory (.tag ⟨none, ['c'], [':'], ['u']⟩) := by
  have hany : ((parse "-c:u\nq: t:elf (o:a or -o:b)".toList).constraintsAt 16).current.any
      Focus.isTerm = true := by decide +kernel
  obtain ⟨c, hc, hterm⟩ := (Option.any_eq_true _ _).1 hany
  obtain ⟨-, hrequired, hforbidden, -⟩ := Tree.constraintsAt_sound _ 16 hc hterm
  exact ⟨c, hc, hterm, (hrequired _ rfl (by decide +kernel)).1,
    (hforbidden _ rfl (by decide +kernel)).1⟩

end CardQuery
