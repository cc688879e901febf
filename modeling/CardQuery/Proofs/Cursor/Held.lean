import CardQuery.Proofs.Cursor.Address

/-!
# What a subtree says to a term

Beside the way from a term to the root, an operand counts as a whole: its terms hold together with
the term just when its root does, except for those in the operands of an `or`, which hold together
with nothing outside of it. So what the operand says, the tags with a sign and those without, is
given when its root counts, and nothing otherwise.

Main statement: `lists_located`.
-/

set_option autoImplicit false

namespace CardQuery

open CardQuery.Tree (AllOf)

/-! ## Constraints that list tags -/

namespace Constraints

variable {a b k l : Constraints} {s t : List QueryTag}

/-- Constraints if they count, and nothing otherwise. -/
def given (k : Constraints) (counts : Bool) : Constraints :=
  if counts then k else .empty

theorem given_false (k : Constraints) : k.given false = .empty := rfl

theorem given_append (k l : Constraints) (counts : Bool) :
    (k.append l).given counts = (k.given counts).append (l.given counts) := by
  cases counts <;> rfl

/-- Whether constraints require the tags without a sign and forbid those with a sign, and no
others. -/
def Lists (k : Constraints) (tags : List QueryTag) : Prop :=
  k.required.Perm ((tags.filter fun t => !t.isNegated).map QueryTag.positive) ∧
    k.forbidden.Perm ((tags.filter QueryTag.isNegated).map QueryTag.positive)

theorem lists_empty : empty.Lists [] :=
  ⟨.refl _, .refl _⟩

theorem Lists.append (ha : a.Lists s) (hb : b.Lists t) : (a.append b).Lists (s ++ t) := by
  rw [Lists, List.filter_append, List.filter_append, List.map_append, List.map_append]
  exact ⟨ha.1.append hb.1, ha.2.append hb.2⟩

theorem Lists.perm (h : k.Lists s) (hst : s.Perm t) : k.Lists t :=
  ⟨h.1.trans ((hst.filter _).map _), h.2.trans ((hst.filter _).map _)⟩

theorem Lists.congr (h : k.Lists s) (hrequired : l.required = k.required)
    (hforbidden : l.forbidden = k.forbidden) : l.Lists s := by
  rw [Lists, hrequired, hforbidden]
  exact h

theorem lists_ofTerm (t : Tree) : (ofTerm t).Lists (QueryTag.ofTerm? t).toList := by
  unfold ofTerm
  split
  · next h =>
      rw [h]
      exact lists_empty
  · next tag h =>
      rw [h]
      cases hsign : tag.isNegated with
      | true => simp [Lists, hsign]
      | false => simp [Lists, hsign, QueryTag.positive_of_unsigned hsign]

/-- Constraints that say nothing list nothing. -/
theorem eq_nil_of_lists_empty (h : empty.Lists s) : s = [] := by
  have hunsigned := h.1.nil_eq
  have hsigned := h.2.nil_eq
  rw [List.nil_eq, List.map_eq_nil_iff, List.filter_eq_nil_iff] at hunsigned hsigned
  refine List.eq_nil_iff_forall_not_mem.2 fun t ht => ?_
  have hpos := hunsigned t ht
  have hneg := hsigned t ht
  simp only [Bool.not_eq_true', Bool.not_eq_false] at hpos
  exact hneg hpos

end Constraints

namespace Address

/-! ## Siblings -/

variable {c a : Address} {k : NodeKind}

theorem heldAmong_append (xs ys : List (Address × Tree)) :
    c.heldAmong (xs ++ ys) = c.heldAmong xs ++ c.heldAmong ys := by
  simp [heldAmong]

@[simp] theorem heldAmong_nil : c.heldAmong [] = [] := rfl

theorem heldAmong_cons_of_not {x : Address × Tree} (h : c.isConjunct x = false)
    (xs : List (Address × Tree)) : c.heldAmong (x :: xs) = c.heldAmong xs := by
  simp [heldAmong, h]

theorem heldAmong_cons (x : Address × Tree) (xs : List (Address × Tree)) :
    c.heldAmong (x :: xs)
      = (if c.isConjunct x then (QueryTag.ofTerm? x.2).toList else []) ++ c.heldAmong xs := by
  cases h : c.isConjunct x with
  | true => cases ht : QueryTag.ofTerm? x.2 <;> simp [heldAmong, h, ht]
  | false => simp [heldAmong, h]

/-- Whether an address is beside the way of `c`, neither on it nor below its end. -/
def Beside (c a : Address) : Prop :=
  ¬ a.path <:+ c.path

theorem Beside.cons (h : Beside c a) (k : NodeKind) (i : Nat) : Beside c ((k, i) :: a) :=
  fun hsuffix => h ((List.suffix_cons i a.path).trans hsuffix)

/-- A term beside the way of `c` counts when its place does. -/
theorem Beside.isConjunct (h : Beside c a) (t : Tree) :
    c.isConjunct (a, t) = (t.isTermAt a && fits c a) := by
  have hne : a.path ≠ c.path := fun heq => h (heq ▸ List.suffix_refl _)
  simp [Address.isConjunct, hne]

/-- Clauses and `and` change nothing about what a place shares. -/
theorem fits_cons (hregion : k.isRegion = false) (hor : k ≠ .binary .or) (i : Nat) :
    fits c ((k, i) :: a) = fits c a := by
  simp [fits, sharesRegion, region?, hregion, sharesOperands, hor]

/-- Nothing in an operand of `or` is shared beside it. -/
theorem Beside.fits_or {i : Nat} (h : Beside c ((.binary .or, i) :: a)) :
    fits c ((.binary .or, i) :: a) = false := by
  have hsuffix : (i :: a.path).isSuffixOf c.path = false := by
    rw [Bool.eq_false_iff, ne_eq, List.isSuffixOf_iff_suffix]
    exact h
  simp [fits, sharesOperands, hsuffix]

theorem locatedOf_eq_nil {cs : List Tree} (h : k.Nests cs) (hk : ∀ j, k.admits j = false)
    (i : Nat) : Tree.locatedOf a k i cs = [] := by
  induction cs generalizing i with
  | nil => simp
  | cons x cs ih =>
      obtain ⟨hx, hcs⟩ := List.forall_mem_cons.1 h
      cases x with
      | token t => simp [ih hcs]
      | node j ds => simp [Tree.kind?, hk] at hx

/-- The parts of a tag are no terms. -/
theorem heldAmong_parts {cs : List Tree} (h : NodeKind.Nests .tag cs)
    (hcs : AllOf NodeKind.Orderly cs) (i : Nat) :
    c.heldAmong (Tree.locatedOf a .tag i cs) = [] := by
  induction cs generalizing i with
  | nil => simp
  | cons x cs ih =>
      obtain ⟨hx, hrest⟩ := List.forall_mem_cons.1 h
      rw [Tree.allOf_cons] at hcs
      rw [Tree.locatedOf_cons, heldAmong_append, ih hrest hcs.2, List.append_nil]
      cases x with
      | token t => simp
      | node j ds =>
          have hpart : j.isTagPart = true := hx
          have hnone : ∀ j', j.admits j' = false := by
            intro j'
            cases j <;> first | rfl | cases hpart
          rw [Tree.all_node] at hcs
          have hterm : (Tree.node j ds).isTermAt ((.tag, i) :: a) = false := by
            cases j <;> first | rfl | cases hpart
          rw [Tree.located_node, locatedOf_eq_nil hcs.1.1.nests hnone, heldAmong_cons_of_not,
            heldAmong_nil]
          rw [Address.isConjunct, hterm]
          rfl

end Address

/-! ## Subtrees beside the way -/

section Beside

open Address

variable {c a : Address}

/-- A term without further terms in it says what its tag is. -/
theorem lists_term {k : NodeKind} {cs : List Tree}
    (hclassify : (Tree.node k cs).classify = .ofTerm (.node k cs)) (hb : Beside c a)
    (hterm : (Tree.node k cs).isTermAt a = true)
    (hrest : c.heldAmong (Tree.locatedOf a k 0 cs) = []) :
    ((Tree.node k cs).classify.given (fits c a)).Lists
      (c.heldAmong ((Tree.node k cs).located a)) := by
  rw [Tree.located_node, heldAmong_cons, hb.isConjunct, hterm, hrest, List.append_nil,
    Bool.true_and, hclassify]
  cases fits c a with
  | true => exact Constraints.lists_ofTerm _
  | false => exact Constraints.lists_empty

/-- A node that is no term says what its children say. -/
theorem heldAmong_located_of_not {k : NodeKind} {cs : List Tree}
    (hterm : (Tree.node k cs).isTermAt a = false) :
    c.heldAmong ((Tree.node k cs).located a) = c.heldAmong (Tree.locatedOf a k 0 cs) := by
  rw [Tree.located_node, heldAmong_cons_of_not]
  rw [Address.isConjunct, hterm]
  rfl

mutual

/-- **Beside the way of a term, a subtree says exactly what holds together with the term in it**, if
its place counts, and nothing of it holds together with the term if not. -/
theorem lists_located {t : Tree} (h : t.All NodeKind.Orderly)
    (hoperand : t.kind?.all NodeKind.isOperand = true) {a : Address} (hb : Beside c a)
    (htag : a.head?.map Prod.fst ≠ some .tag) :
    (t.classify.given (fits c a)).Lists (c.heldAmong (t.located a)) := by
  cases t with
  | token t =>
      cases hfits : fits c a <;>
        simpa [Tree.classify, Constraints.given] using Constraints.lists_empty
  | node k cs =>
      rw [Tree.all_node] at h
      obtain ⟨hnode, hcs⟩ := h
      have hnests := hnode.nests
      -- what holds together below a clause or `and` does so just when the node itself counts
      have hjoined : k.joins? = some .and → k.isRegion = false → k ≠ .tag →
          (Tree.node k cs).isTermAt a = false → (∀ t ∈ cs, t.kind?.all NodeKind.isOperand = true) →
          ((Tree.node k cs).classify.given (fits c a)).Lists
            (c.heldAmong ((Tree.node k cs).located a)) := by
        intro hk hregion hne hterm hoperands
        have hor : k ≠ .binary .or := by
          rintro rfl
          cases hk
        rw [heldAmong_located_of_not hterm, Tree.classify_of_joins hk hnests,
          Tree.concat_classify_filter hoperands]
        exact lists_locatedOf hcs hoperands (fun j _ _ => hb.cons k j) hne
          fun j _ _ => fits_cons hregion hor j
      cases k with
      | clause => exact hjoined rfl rfl (by decide) rfl hnests
      | binary op =>
          cases op with
          | and => exact hjoined rfl rfl (by decide) rfl hnests
          | or =>
              have hnone := lists_locatedOf hcs hnests (fun j (_ : 0 ≤ j) _ => hb.cons _ j)
                (by decide) fun j _ _ => (hb.cons _ j).fits_or
              rw [heldAmong_located_of_not rfl, Tree.classify]
              refine hnone.congr ?_ ?_ <;> cases fits c a <;> rfl
      | tag => exact lists_term (by rw [Tree.classify]) hb rfl (heldAmong_parts hnests hcs 0)
      | argument | literal kind =>
          have hrest := locatedOf_eq_nil (a := a) hnests (fun _ => rfl) 0
          refine lists_term (by rw [Tree.classify]) hb ?_ (by rw [hrest]; rfl)
          simpa [Tree.isTermAt, Tree.kind?] using htag
      | error =>
          have hrest := locatedOf_eq_nil (a := a) hnests (fun _ => rfl) 0
          rw [heldAmong_located_of_not rfl, hrest, Tree.classify_of_operand hoperand rfl]
          cases fits c a <;> exact Constraints.lists_empty
      | _ => cases hoperand

theorem lists_locatedOf {k : NodeKind} {cs : List Tree} (h : AllOf NodeKind.Orderly cs)
    (hoperand : ∀ t ∈ cs, t.kind?.all NodeKind.isOperand = true) {a : Address} {i : Nat}
    {counts : Bool} (hb : ∀ j, i ≤ j → j < i + cs.length → Beside c ((k, j) :: a)) (hk : k ≠ .tag)
    (hfits : ∀ j, i ≤ j → j < i + cs.length → fits c ((k, j) :: a) = counts) :
    ((Constraints.concat (cs.map Tree.classify)).given counts).Lists
      (c.heldAmong (Tree.locatedOf a k i cs)) := by
  cases cs with
  | nil =>
      rw [Tree.locatedOf_nil]
      cases counts <;> exact Constraints.lists_empty
  | cons x cs =>
      rw [Tree.allOf_cons] at h
      obtain ⟨hx, hrest⟩ := List.forall_mem_cons.1 hoperand
      rw [List.length_cons] at hb hfits
      have hhead := lists_located h.1 hx (hb i (by omega) (by omega)) (by simpa using hk)
      have htail := lists_locatedOf h.2 hrest
        (fun j (hj : i + 1 ≤ j) hlt => hb j (by omega) (by omega)) hk
        fun j hj hlt => hfits j (by omega) (by omega)
      rw [hfits i (by omega) (by omega)] at hhead
      rw [Tree.locatedOf_cons, heldAmong_append]
      cases counts with
      | true => exact hhead.append htail
      | false => exact hhead.append htail

end

end Beside

end CardQuery
