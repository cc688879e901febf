import CardQuery.Proofs.Cursor.Held
import CardQuery.Proofs.Parse.SingleClause

/-!
# What is known at a term is exactly what holds together with it

The tags that are required and forbidden at a term are collected on the way up to its region. Each
step adds what the other children of a node say (`lists_fill`), except at an `or`, where no other
operand counts. Above the region only the domain is added, for a term in a query
(`lists_program`), since a region beside the way is another one (`Beside.fits_region`). The steps up
to the root put all this together (`Climb.lists`).

In a clause the other expressions are not added although they hold together with the term, so the
statement is about texts in which a clause has no others. Texts without errors are such texts.

Main statement: `Tree.constraintsAt_exact`.
-/

set_option autoImplicit false

namespace CardQuery

open CardQuery.Tree (AllOf)

/-! ## Along the way of a term -/

namespace Address

variable {c a : Address} {k : NodeKind} {i : Nat}

/-- Whether an address is on the way of `c`, not above its region. -/
structure OnWay (c a : Address) : Prop where
  path : a.path <:+ c.path
  region : a.region? = c.region?
  query : a.inQuery = c.inQuery

theorem OnWay.self (c : Address) : OnWay c c :=
  ⟨List.suffix_refl _, rfl, rfl⟩

theorem OnWay.up (h : OnWay c ((k, i) :: a)) (hregion : k.isRegion = false)
    (hquery : k ≠ .query) : OnWay c a where
  path := (List.suffix_cons i a.path).trans h.path
  region := by simpa [region?, hregion] using h.region
  query := by simpa [inQuery, hquery] using h.query

theorem sharesOperands_of_suffix (h : a.path <:+ c.path) : sharesOperands c a = true := by
  induction a with
  | nil => rfl
  | cons x a ih =>
      obtain ⟨k, i⟩ := x
      have hrest := ih ((List.suffix_cons i (path a)).trans h)
      have hsuffix : (i :: path a).isSuffixOf c.path = true := List.isSuffixOf_iff_suffix.2 h
      simp [sharesOperands, hrest, hsuffix]

/-- The places beside the way count, but for those beside an operand of `or`. -/
theorem OnWay.fits (h : OnWay c ((k, i) :: a)) (hor : k ≠ .binary .or) (j : Nat) :
    fits c ((k, j) :: a) = true := by
  have hregion : region? ((k, j) :: a) = c.region? := by
    rw [← h.region]
    simp [region?]
  have hoperands := sharesOperands_of_suffix ((List.suffix_cons i a.path).trans h.path)
  simp [Address.fits, sharesRegion, hregion, sharesOperands, hor, hoperands]

/-- The other children of a node on the way are beside the way. -/
theorem beside_of_ne (h : path ((k, i) :: a) <:+ c.path) {j : Nat} (hne : j ≠ i) :
    Beside c ((k, j) :: a) :=
  fun hj => hne (eq_of_suffix_cons hj h)

/-- The path of the region around an address is on the way of the address. -/
theorem suffix_of_region? {k : NodeKind} {p : List Nat} (h : a.region? = some (k, p)) :
    p <:+ a.path := by
  induction a with
  | nil => cases h
  | cons x a ih =>
      obtain ⟨j, i⟩ := x
      rw [region?] at h
      split at h
      · cases h
        exact List.suffix_cons i _
      · exact (ih h).trans (List.suffix_cons i (path a))

/-- A region beside the way is another one, and of these only the domain is shared. -/
theorem Beside.fits_region (h : Beside c a) {k : NodeKind} (hk : k.isRegion = true) (i : Nat) :
    fits c ((k, i) :: a) = (c.inQuery && k = .domain && sharesOperands c a) := by
  have hother : c.region?.map Prod.snd ≠ some (path a) := by
    intro heq
    obtain ⟨r, hr, hpath⟩ := Option.map_eq_some_iff.1 heq
    exact h (hpath ▸ suffix_of_region? hr)
  have hor : k ≠ .binary .or := by
    rintro rfl
    cases hk
  simp [fits, sharesRegion, region?, hk, hother.symm, sharesOperands, hor]

end Address

/-! ## Steps up -/

section Steps

open Address

variable {c a : Address} {s : Step} {t : Tree} {b b' l : Constraints}

/-- A step up lists what is held below it and in the children beside it. -/
theorem lists_fill_of (hterm : s.kind.isTerm = false)
    (hbefore : b.Lists (c.heldAmong (Tree.locatedOf a s.kind 0 s.before)))
    (hl : l.Lists (c.heldAmong (t.located ((s.kind, s.before.length) :: a))))
    (hafter : b'.Lists (c.heldAmong (Tree.locatedOf a s.kind (s.before.length + 1) s.after))) :
    (l.append (b.append b')).Lists (c.heldAmong ((s.fill t).located a)) := by
  have hnot : (s.fill t).isTermAt a = false := by
    cases hk : s.kind <;> simp_all [Step.fill, Tree.isTermAt, Tree.kind?, NodeKind.isTerm]
  rw [Step.fill] at hnot ⊢
  rw [heldAmong_located_of_not hnot, Tree.locatedOf_append, heldAmong_append, Tree.locatedOf_cons,
    heldAmong_append, Nat.zero_add]
  exact (hl.append (hbefore.append hafter)).perm (List.perm_append_comm_assoc ..)

/-- A step up to a node of operands lists what its other expressions say, if they count. -/
theorem lists_fill (ho : s.Orderly)
    (hothers : ∀ x ∈ s.others, x.kind?.all NodeKind.isOperand = true)
    (hterm : s.kind.isTerm = false)
    (hway : path ((s.kind, s.before.length) :: a) <:+ c.path) {counts : Bool}
    (hfits : ∀ j, j ≠ s.before.length → fits c ((s.kind, j) :: a) = counts)
    (hl : l.Lists (c.heldAmong (t.located ((s.kind, s.before.length) :: a)))) :
    (l.append ((Constraints.concat (s.siblings.map Tree.classify)).given counts)).Lists
      (c.heldAmong ((s.fill t).located a)) := by
  have hall := ho.others
  rw [Step.others, Tree.allOf_append] at hall
  rw [Step.others, List.forall_mem_append] at hothers
  have htag : s.kind ≠ .tag := by
    intro hk
    rw [hk] at hterm
    cases hterm
  have hbefore := lists_locatedOf (c := c) (a := a) (i := 0) hall.1 hothers.1
    (fun j _ hj => beside_of_ne hway (by omega)) htag fun j _ hj => hfits j (by omega)
  have hafter := lists_locatedOf (c := c) (a := a) (i := s.before.length + 1) hall.2 hothers.2
    (fun j hj _ => beside_of_ne hway (by omega)) htag fun j hj _ => hfits j (by omega)
  have hsum := lists_fill_of hterm hbefore hl hafter
  rwa [← Constraints.given_append, ← Constraints.concat_append, ← List.map_append,
    ← Tree.concat_classify_filter (List.forall_mem_append.2 hothers), ← Step.others,
    ← Step.siblings_eq] at hsum

end Steps

/-! ## Outside the region of a term -/

section Outside

open Address

variable {c a : Address}

/-- A region beside the way counts as a whole or not at all. -/
theorem lists_region {k : NodeKind} {cs : List Tree} (hk : k.isRegion = true)
    (hoperand : ∀ x ∈ cs, x.kind?.all NodeKind.isOperand = true)
    (h : (Tree.node k cs).All NodeKind.Orderly) (hb : Beside c a) :
    ((Tree.node k cs).classify.given (c.inQuery && k = .domain && sharesOperands c a)).Lists
      (c.heldAmong ((Tree.node k cs).located a)) := by
  rw [Tree.all_node] at h
  have hjoins : k.joins? = some .and := by cases k <;> first | rfl | cases hk
  have hterm : (Tree.node k cs).isTermAt a = false := by cases k <;> first | rfl | cases hk
  have htag : k ≠ .tag := by
    rintro rfl
    cases hk
  rw [heldAmong_located_of_not hterm, Tree.classify_of_joins hjoins h.1.nests,
    Tree.concat_classify_filter hoperand]
  exact lists_locatedOf h.2 hoperand (fun j _ _ => hb.cons k j) htag
    fun j _ _ => hb.fits_region hk j

/-- Nothing in a query is held, but for its body when it is on the way. -/
theorem heldAmong_queryParts {cs : List Tree} (h : AllOf NodeKind.Orderly cs)
    (hnests : NodeKind.Nests .query cs)
    (hb : (∀ x ∈ cs, x.isKind .queryBody = false) ∨ Beside c a) (i : Nat) :
    c.heldAmong (Tree.locatedOf a .query i cs) = [] := by
  induction cs generalizing i with
  | nil => simp
  | cons x cs ih =>
      rw [Tree.allOf_cons] at h
      obtain ⟨hx, hrest⟩ := List.forall_mem_cons.1 hnests
      have htail := ih h.2 hrest (hb.imp_left fun hall => (List.forall_mem_cons.1 hall).2) (i + 1)
      rw [Tree.locatedOf_cons, heldAmong_append, htail, List.append_nil]
      cases x with
      | token t => simp
      | node k ds =>
          cases k with
          | queryName =>
              have hname := h.1
              rw [Tree.all_node] at hname
              rw [heldAmong_located_of_not rfl, locatedOf_eq_nil hname.1.nests (fun _ => rfl),
                heldAmong_nil]
          | queryBody =>
              rcases hb with hnone | hb
              · cases hnone (.node .queryBody ds) (by simp)
              · have hbody := h.1
                rw [Tree.all_node] at hbody
                have hlists := lists_region rfl hbody.1.nests h.1 (hb.cons .query i)
                simp only [reduceCtorEq, decide_false, Bool.and_false, Bool.false_and] at hlists
                exact Constraints.eq_nil_of_lists_empty hlists
          | _ => cases hx

/-- Beside the way of a term in a program, the domain counts in queries and nothing else does. -/
theorem lists_parts {cs : List Tree} (h : AllOf NodeKind.Orderly cs)
    (hparts : ∀ x ∈ cs, x.IsOuterPart) {i : Nat}
    (hb : ∀ j, i ≤ j → j < i + cs.length → Beside c [(.program, j)]) :
    ((Constraints.concat ((cs.filter (Tree.isKind .domain)).map Tree.classify)).given
      c.inQuery).Lists (c.heldAmong (Tree.locatedOf [] .program i cs)) := by
  induction cs generalizing i with
  | nil => cases c.inQuery <;> exact Constraints.lists_empty
  | cons x cs ih =>
      rw [Tree.allOf_cons] at h
      rw [List.length_cons] at hb
      obtain ⟨hx, hrest⟩ := List.forall_mem_cons.1 hparts
      have hhere := hb i (by omega) (by omega)
      have htail := ih h.2 hrest fun j (hj : i + 1 ≤ j) hlt => hb j (by omega) (by omega)
      rw [Tree.locatedOf_cons, heldAmong_append]
      cases x with
      | token t => simpa [Tree.isKind, Tree.kind?] using htail
      | node k ds =>
          have hnode := h.1
          rw [Tree.all_node] at hnode
          cases k with
          | domain =>
              have hdomain := lists_region rfl hnode.1.nests h.1 hhere
              have hcounts : (c.inQuery && (NodeKind.domain = .domain) &&
                  sharesOperands c [(.program, i)]) = c.inQuery := by
                simp [sharesOperands]
              rw [hcounts] at hdomain
              rw [List.filter_cons_of_pos rfl, List.map_cons]
              exact Constraints.given_append .. ▸ hdomain.append htail
          | query =>
              rw [heldAmong_located_of_not rfl, heldAmong_queryParts hnode.2 hnode.1.nests
                (Or.inr hhere), List.nil_append, List.filter_cons_of_neg (by simp [Tree.isKind])]
              exact htail
          | _ => cases hx

end Outside

/-! ## The whole way -/

section Climb

open Address

variable {c : Address} {s : Step} {above : List Step} {t : Tree} {l : Constraints}

/-- What the domain says, seen from `c`. -/
def sharedIn (c : Address) (whole : Tree) : Constraints :=
  ((whole.domain?.map Tree.classify).getD .empty).given c.inQuery

/-- A step up to a region or to an `and` lists what its other expressions say. -/
theorem lists_fill_on (ho : s.Orderly)
    (hothers : ∀ x ∈ s.others, x.kind?.all NodeKind.isOperand = true)
    (hterm : s.kind.isTerm = false) (hor : s.kind ≠ .binary .or)
    (hway : OnWay c (ofSteps (s :: above)))
    (hl : l.Lists (c.heldAmong (t.located (ofSteps (s :: above))))) :
    (l.append (Constraints.concat (s.siblings.map Tree.classify))).Lists
      (c.heldAmong ((s.fill t).located (ofSteps above))) := by
  have hfits : ∀ j, j ≠ s.before.length → fits c ((s.kind, j) :: ofSteps above) = true :=
    fun j _ => hway.fits hor j
  exact lists_fill ho hothers hterm hway.path hfits hl

/-- The step up to a program with headers adds the domain for a term in a query. -/
theorem lists_program {p : Step} {y : Tree} (hp : p.kind = .program) (hpo : p.Orderly)
    (hparts : ∀ x ∈ p.others, x.IsOuterPart) (hpath : path (ofSteps [p]) <:+ c.path)
    (hl : l.Lists (c.heldAmong (y.located (ofSteps [p])))) :
    (l.append ((Constraints.concat ((p.others.filter (Tree.isKind .domain)).map
      Tree.classify)).given c.inQuery)).Lists (c.heldAmong ((p.fill y).located [])) := by
  have hall := hpo.others
  rw [Step.others, Tree.allOf_append] at hall
  rw [Step.others, List.forall_mem_append] at hparts
  rw [ofSteps, List.map_singleton, hp] at hpath hl
  have hbefore := lists_parts (c := c) (i := 0) hall.1 hparts.1
    fun j _ hj => beside_of_ne hpath (by omega)
  have hafter := lists_parts (c := c) (i := p.before.length + 1) hall.2 hparts.2
    fun j hj _ => beside_of_ne hpath (by omega)
  rw [Step.others, List.filter_append, List.map_append, Constraints.concat_append,
    Constraints.given_append]
  rw [← hp] at hbefore hafter hl
  exact lists_fill_of (by rw [hp]; rfl) hbefore hl hafter

/-- The step up from the body of a query adds nothing. -/
theorem lists_query {q : Step} {y : Tree} {a : Address} (hq : q.kind = .query) (hqo : q.Orderly)
    (hbody : ∀ x ∈ q.others, x.isKind .queryBody = false)
    (hl : l.Lists (c.heldAmong (y.located ((q.kind, q.before.length) :: a)))) :
    l.Lists (c.heldAmong ((q.fill y).located a)) := by
  have hall := hqo.others
  have hnests := hqo.nests
  rw [Step.others, Tree.allOf_append] at hall
  rw [hq] at hnests
  rw [Step.others, List.forall_mem_append] at hbody
  obtain ⟨hnests, hnests'⟩ := List.forall_mem_append.1 hnests
  have hbefore := heldAmong_queryParts (c := c) (a := a) hall.1 hnests (Or.inl hbody.1) 0
  have hafter := heldAmong_queryParts (c := c) (a := a) hall.2 hnests' (Or.inl hbody.2)
    (q.before.length + 1)
  rw [← hq] at hbefore hafter
  have hfill := lists_fill_of (by rw [hq]; rfl) (by rw [hbefore]; exact Constraints.lists_empty) hl
    (by rw [hafter]; exact Constraints.lists_empty)
  rwa [Constraints.append_empty, Constraints.append_empty] at hfill

/-- What is no domain is not in the way when the domain is looked for. -/
theorem domain?_fill {p : Step} {y : Tree} (hy : y.isKind .domain = false) :
    (p.fill y).domain? = (p.others.filter (Tree.isKind .domain)).head? := by
  rw [List.head?_filter, Tree.domain?, Tree.child?, Step.fill, Tree.children, Step.others,
    List.find?_append, List.find?_append, List.find?_cons_of_neg (by simp [hy])]

/-- A program has no other domain than the one beside a query. -/
theorem concat_domains {p : Step} {y : Tree} (hy : y.isKind .domain = false)
    (hdomain : p.others.countP (Tree.isKind .domain) ≤ 1) :
    Constraints.concat ((p.others.filter (Tree.isKind .domain)).map Tree.classify)
      = ((p.fill y).domain?.map Tree.classify).getD .empty := by
  rw [List.countP_eq_length_filter] at hdomain
  rw [domain?_fill hy]
  cases hfilter : p.others.filter (Tree.isKind .domain) with
  | nil => rfl
  | cons d ds =>
      rw [hfilter] at hdomain
      have hnil : ds = [] := by simpa using hdomain
      rw [hnil]
      exact Constraints.append_empty d.classify

/-- In a clause with one expression, an expression has no siblings. -/
theorem siblings_eq_nil (hs : s.kind = .clause) (ht : t.isExpression = true)
    (h : (s.fill t).All NodeKind.SingleClause) : s.siblings = [] := by
  rw [Step.fill, Tree.all_node] at h
  have hlength := h.1 hs
  rw [List.filter_append, List.filter_cons_of_pos ht, List.length_append, List.length_cons]
    at hlength
  rw [Step.siblings, List.append_eq_nil_iff, ← List.length_eq_zero_iff, ← List.length_eq_zero_iff]
  omega

/-- The step up to a clause with one expression adds nothing. -/
theorem lists_fill_clause (ho : s.Orderly) (hs : s.kind = .clause) (ht : t.isExpression = true)
    (hsingle : (s.fill t).All NodeKind.SingleClause) (hway : OnWay c (ofSteps (s :: above)))
    (hl : l.Lists (c.heldAmong (t.located (ofSteps (s :: above))))) :
    l.Lists (c.heldAmong ((s.fill t).located (ofSteps above))) := by
  have hothers := ho.nests
  rw [hs] at hothers
  have hfill := lists_fill_on ho hothers (by rw [hs]; rfl) (by simp [hs]) hway hl
  have hempty : Constraints.concat (s.siblings.map Tree.classify) = .empty := by
    rw [siblings_eq_nil hs ht hsingle]
    rfl
  rwa [hempty, Constraints.append_empty] at hfill

/-- The step up to an `or` adds branches, and no tag of any. -/
theorem lists_fill_or (ho : s.Orderly) (hs : s.kind = .binary .or)
    (hway : OnWay c (ofSteps (s :: above)))
    (hl : l.Lists (c.heldAmong (t.located (ofSteps (s :: above)))))
    (alternatives : List (List QueryTag)) :
    (l.append ⟨[], [], alternatives⟩).Lists (c.heldAmong ((s.fill t).located (ofSteps above))) := by
  have hothers := ho.nests
  rw [hs] at hothers
  have hnone : ∀ j, j ≠ s.before.length → fits c ((s.kind, j) :: ofSteps above) = false := by
    intro j hj
    have hbeside := beside_of_ne hway.path hj
    rw [hs] at hbeside ⊢
    exact hbeside.fits_or
  have hfill := lists_fill ho hothers (by rw [hs]; rfl) hway.path hnone hl
  rw [Constraints.given_false, Constraints.append_empty] at hfill
  refine hfill.congr ?_ ?_ <;> simp [Constraints.append]

/-- **Along the way up from a term, exactly what holds together with it is collected.** -/
theorem Climb.lists (h : Climb above) (ht : t.isExpression = true)
    (hsingle : (Focus.wholeFrom t above).All NodeKind.SingleClause)
    (hway : OnWay c (ofSteps above)) (hl : l.Lists (c.heldAmong (t.located (ofSteps above)))) :
    ((l.append (constraintsAbove t above)).append (sharedIn c (Focus.wholeFrom t above))).Lists
      (c.heldAmong ((Focus.wholeFrom t above).located [])) := by
  induction h generalizing t l with
  | @program s hs ho hothers =>
      have hquery : c.inQuery = false := by
        rw [← hway.query]
        simp [ofSteps, inQuery, hs]
      have hfill := lists_fill_on ho hothers (by rw [hs]; rfl) (by simp [hs]) hway hl
      rw [constraintsAbove_region ht (by rw [hs]; rfl), sharedIn, hquery, Constraints.given_false,
        Constraints.append_empty]
      exact hfill
  | @domain s p hs ho hp hpo hqueries =>
      have hquery : c.inQuery = false := by
        rw [← hway.query]
        simp [ofSteps, inQuery, hs, hp]
      have hothers := ho.nests
      rw [hs] at hothers
      have hfill := lists_fill_on ho hothers (by rw [hs]; rfl) (by simp [hs]) hway hl
      have hparts : ∀ x ∈ p.others, x.IsOuterPart := by
        intro x hx
        have hquery := hqueries x hx
        rw [Tree.IsOuterPart]
        cases hk : x.kind? <;> simp_all
      have hall := lists_program hp hpo hparts ((List.suffix_cons _ _).trans hway.path) hfill
      rw [hquery, Constraints.given_false, Constraints.append_empty] at hall
      rw [constraintsAbove_region ht (by rw [hs]; rfl), sharedIn, hquery, Constraints.given_false,
        Constraints.append_empty]
      exact hall
  | @queryBody s q p hs ho hq hqo hbody hp hpo hparts hdomain =>
      have hothers := ho.nests
      rw [hs] at hothers
      have hfill := lists_fill_on ho hothers (by rw [hs]; rfl) (by simp [hs]) hway hl
      have hquery := lists_query hq hqo hbody hfill
      have hpath := (List.suffix_cons _ _).trans ((List.suffix_cons _ _).trans hway.path)
      have hall := lists_program hp hpo hparts hpath hquery
      have hnot : (q.fill (s.fill t)).isKind .domain = false := by
        rw [Step.fill, hq]
        rfl
      rw [constraintsAbove_region ht (by rw [hs]; rfl), sharedIn]
      rw [concat_domains hnot hdomain] at hall
      exact hall
  | @clause s above hs ho h ih =>
      have hfill := lists_fill_clause ho hs ht (Focus.all_of_wholeFrom hsingle) hway hl
      rw [constraintsAbove_clause ht hs]
      exact ih (t := s.fill t) (by rw [Step.fill, hs]; rfl) hsingle
        (hway.up (by rw [hs]; rfl) (by simp [hs])) hfill
  | @binary op s above hs ho hone h ih =>
      have hup := hway.up (by rw [hs]; rfl) (by simp [hs])
      have hexpr : (s.fill t).isExpression = true := by
        rw [Step.fill, hs]
        rfl
      cases op with
      | and =>
          have hothers := ho.nests
          rw [hs] at hothers
          have hfill := lists_fill_on ho hothers (by rw [hs]; rfl) (by simp [hs]) hway hl
          rw [constraintsAbove_and ht hs, ← Constraints.append_assoc]
          exact ih hexpr hsingle hup hfill
      | or =>
          rw [constraintsAbove_or ht hs, ← Constraints.append_assoc]
          exact ih hexpr hsingle hup (lists_fill_or ho hs hway hl _)

end Climb

/-- No other term stands in a term. -/
theorem heldAmong_self {c : Focus} (h : c.tree.All NodeKind.Orderly) (hterm : c.isTerm = true) :
    c.address.heldAmong (c.tree.located c.address) = [] := by
  obtain ⟨k, hk, hkind, -⟩ := Focus.exists_kind_of_isTerm hterm
  rcases c with ⟨t, start, above⟩
  cases t with
  | token t => cases hk
  | node j cs =>
      obtain rfl : j = k := by simpa [Tree.kind?] using hk
      rw [Tree.all_node] at h
      rw [Tree.located_node, Address.heldAmong_cons_of_not (by simp [Address.isConjunct])]
      cases j with
      | tag => exact Address.heldAmong_parts h.1.nests h.2 0
      | argument | literal kind =>
          rw [Address.locatedOf_eq_nil h.1.nests fun _ => rfl]
          rfl
      | _ => cases hkind

/-- **What is known at a term is exactly what holds together with it**, in any text in which no
clause has several expressions. A text without errors is one. -/
theorem Tree.constraintsAt_exact (t : Text) :
    ((parse t).nodes.map Focus.path).Nodup ∧
    (syntaxErrors (parse t) = [] → (parse t).All NodeKind.SingleClause) ∧
    ((parse t).All NodeKind.SingleClause → ∀ (offset : Nat) (c : Focus),
      ((parse t).constraintsAt offset).current = some c → c.isTerm = true →
      let known := ((parse t).constraintsAt offset).constraints
      let tags := (parse t).heldTags c
      known.required.Perm ((tags.filter fun tag => !tag.isNegated).map QueryTag.positive) ∧
        known.forbidden.Perm ((tags.filter QueryTag.isNegated).map QueryTag.positive)) := by
  refine ⟨Tree.nodup_path_nodes _, all_singleClause_parse, fun hsingle offset c hc hterm => ?_⟩
  rw [Tree.current_constraintsAt] at hc
  have hwhole : Focus.wholeFrom c.tree c.above = parse t := Tree.whole_of_currentAt? hc
  have horder : (Focus.wholeFrom c.tree c.above).OrderlyProgram := hwhole ▸ orderlyProgram_parse t
  have hself : Constraints.empty.Lists (c.address.heldAmong (c.tree.located c.address)) := by
    rw [heldAmong_self (Focus.all_of_wholeFrom horder.all) hterm]
    exact Constraints.lists_empty
  have hlists := (Focus.climb horder hterm).lists (c := c.address)
    (Focus.isExpression_of_isTerm hterm) (by rwa [hwhole]) (Address.OnWay.self _) hself
  have hshared : sharedIn c.address (parse t) = (parse t).sharedWith c := by
    have hquery : c.address.inQuery = c.inQuery := Focus.inQuery_address c
    rw [sharedIn, hquery]
    rfl
  rw [hwhole, hshared, ← Tree.heldTags_eq] at hlists
  intro known tags
  have hknown : known = (constraintsAbove c.tree c.above).append ((parse t).sharedWith c) :=
    Tree.constraints_of_isTerm hc hterm
  rw [hknown]
  exact hlists

/-- In an operand of `or`, beside a tag on each side, below a domain and before another query. -/
theorem Tree.constraintsAt_exact_in_query :
    ∃ c, ((parse "-c:u\nq: t:elf (o:a or -o:b) r:m\np: o:c".toList).constraintsAt 16).current
        = some c ∧ c.isTerm = true ∧
      ((parse "-c:u\nq: t:elf (o:a or -o:b) r:m\np: o:c".toList).constraintsAt
        16).constraints.required.Perm
        [⟨none, ['t'], [':'], ['e', 'l', 'f']⟩, ⟨none, ['r'], [':'], ['m']⟩] := by
  have herrors : syntaxErrors (parse "-c:u\nq: t:elf (o:a or -o:b) r:m\np: o:c".toList) = [] := by
    decide +kernel
  have hheld : (((parse "-c:u\nq: t:elf (o:a or -o:b) r:m\np: o:c".toList).constraintsAt
      16).current.map fun c => (c.isTerm,
        (parse "-c:u\nq: t:elf (o:a or -o:b) r:m\np: o:c".toList).heldTags c))
      = some (true, [⟨some ['-'], ['c'], [':'], ['u']⟩, ⟨none, ['t'], [':'], ['e', 'l', 'f']⟩,
        ⟨none, ['r'], [':'], ['m']⟩]) := by decide +kernel
  obtain ⟨c, hc, hpair⟩ := Option.map_eq_some_iff.1 hheld
  obtain ⟨hterm, htags⟩ := Prod.mk.inj hpair
  obtain ⟨-, hsingle, hexact⟩ := Tree.constraintsAt_exact
    "-c:u\nq: t:elf (o:a or -o:b) r:m\np: o:c".toList
  have hrequired := (hexact (hsingle herrors) 16 c hc hterm).1
  rw [htags] at hrequired
  exact ⟨c, hc, hterm, hrequired⟩

end CardQuery
