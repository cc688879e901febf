import CardQuery.Parse.Group
import CardQuery.Proofs.Tree.Squeeze

/-!
# Blanks between items

The trees that items are joined to do not depend on the blanks among the items, up to the blanks
that stand in the trees. So what a region means, and whether it is faultless, follows from its
solid items alone.

Main statement: joining the solid items gives the squeezed trees of all the items
(`squeezeEach_joined`).
-/

set_option autoImplicit false

namespace CardQuery

/-- The trees of the region that consists of these items. -/
def joined (is : List Item) : List Tree :=
  (is.foldl Nest.step Nest.start).finish

theorem regionTrees_eq_joined (ts : List Token) : regionTrees ts = joined (items ts) := rfl

/-- Whether an item is a blank. -/
def Item.isBlank : Item → Bool
  | .blank _ => true
  | _ => false

/-- The items that are no blanks. -/
def solid (is : List Item) : List Item :=
  is.filter fun i => !i.isBlank

@[simp] theorem solid_nil : solid [] = [] := rfl

@[simp] theorem solid_append (is js : List Item) : solid (is ++ js) = solid is ++ solid js :=
  List.filter_append ..

theorem solid_flatten (rows : List (List Item)) : solid rows.flatten = rows.flatMap solid := by
  induction rows with
  | nil => rfl
  | cons row rows ih => rw [List.flatten_cons, solid_append, ih, List.flatMap_cons]

@[simp] theorem solid_cons_blank (t : Token) (is : List Item) :
    solid (.blank t :: is) = solid is := rfl

theorem solid_cons {i : Item} (h : i.isBlank = false) (is : List Item) :
    solid (i :: is) = i :: solid is := by
  simp [solid, h]

theorem solid_parens (o c : Token) (is : List Item) :
    solid (.opening o :: is ++ [.closing c]) = .opening o :: solid is ++ [.closing c] := by
  rw [List.cons_append, solid_cons rfl, solid_append]
  rfl

/-! ## Proper items -/

/-- Whether the token or the tree of an item is of the kind that the item says. -/
def Item.Proper : Item → Prop
  | .blank t => t.kind = .blank
  | .keyword op t => t.kind = .keyword op
  | .opening t => t.kind = .leftParen
  | .closing t => t.kind = .rightParen
  | .term tree => ∃ k cs, tree = .node k cs ∧ (k.isTerm = true ∨ k = .error)

namespace Draft

/-- Whether the item that is complete, if one is, is proper. -/
def Proper : Draft → Prop
  | .complete i => i.Proper
  | _ => True

theorem proper_start (t : Token) : (start t).Proper := by
  unfold start
  split <;> simp_all [Proper, Item.Proper, Tree.leaf, NodeKind.isTerm]

theorem proper_tagOf (sign : Option Token) (parts : List Tree) : (tagOf sign parts).Proper :=
  ⟨_, _, rfl, Or.inl rfl⟩

theorem proper_extend {d d' : Draft} {t : Token} (h : d.extend t = some d') : d'.Proper := by
  cases d <;> simp only [extend] at h
  case complete => cases h
  all_goals
    split at h <;> cases h <;> first | trivial | exact proper_tagOf _ _

theorem proper_finish {d : Draft} (h : d.Proper) (next : Option TokenKind) :
    (d.finish next).Proper := by
  cases d with
  | complete i => exact h
  | minus m =>
      simp only [finish]
      split
      · exact ⟨_, _, rfl, Or.inr rfl⟩
      · exact proper_tagOf _ _
  | word sign w =>
      cases sign with
      | none => exact ⟨_, _, rfl, Or.inl rfl⟩
      | some m => exact proper_tagOf _ _
  | tag sign a op => exact proper_tagOf _ _
  | value sign a op words => exact proper_tagOf _ _
  | stray ts => exact ⟨_, _, rfl, Or.inr rfl⟩

/-- What holds of every draft that is begun or extended is known of every item that is finished. -/
theorem forall_mem_run {P : Token → Prop} {D : Draft → Prop} {I : Item → Prop}
    (hstart : ∀ t, P t → D (start t))
    (hextend : ∀ {d d' t}, D d → P t → d.extend t = some d' → D d')
    (hfinish : ∀ {d}, D d → ∀ next, I (d.finish next)) {d : Draft} (h : D d) {ts : List Token}
    (hts : ∀ t ∈ ts, P t) : ∀ i ∈ d.run ts, I i := by
  induction ts generalizing d with
  | nil =>
      intro i hi
      rw [List.mem_singleton.1 hi]
      exact hfinish h none
  | cons t ts ih =>
      obtain ⟨ht, hrest⟩ := List.forall_mem_cons.1 hts
      rw [run]
      cases hext : d.extend t with
      | some d' => exact ih (hextend h ht hext) hrest
      | none =>
          intro i hi
          rcases List.mem_cons.1 hi with rfl | hi
          · exact hfinish h _
          · exact ih (hstart t ht) hrest i hi

theorem proper_run {d : Draft} (h : d.Proper) (ts : List Token) : ∀ i ∈ d.run ts, i.Proper :=
  forall_mem_run (P := fun _ => True) (fun t _ => proper_start t)
    (fun _ _ hext => proper_extend hext) proper_finish h fun _ _ => trivial

end Draft

/-- Every item that is gathered is proper. -/
theorem proper_items (ts : List Token) : ∀ i ∈ items ts, i.Proper := by
  cases ts with
  | nil => simp [items]
  | cons t ts => exact Draft.proper_run (Draft.proper_start t) ts

/-! ## Squeezing groups -/

/-- The chain without the blanks in it. -/
def Chain.squeeze : Chain → Chain
  | .empty => .empty
  | .operand outer run => .operand (Tree.squeezeEach outer) (Tree.squeezeEach run)
  | .afterAnd outer run => .afterAnd (Tree.squeezeEach outer) (Tree.squeezeEach run)
  | .afterOr outer => .afterOr (Tree.squeezeEach outer)

/-- Whether the part before the right operand of an `or` node holds more than blanks. -/
def Chain.Grounded : Chain → Prop
  | .empty => True
  | .operand outer _ | .afterAnd outer _ => Tree.squeezeEach outer = [] → outer = []
  | .afterOr outer => Tree.squeezeEach outer ≠ []

@[simp] theorem closeOr_nil (run : List Tree) : closeOr [] run = run := rfl

theorem closeOr_of_ne_nil {outer : List Tree} (h : outer ≠ []) (run : List Tree) :
    closeOr outer run = [.node (.binary .or) (outer ++ run)] := by
  cases outer with
  | nil => exact absurd rfl h
  | cons x xs => rfl

theorem squeezeEach_closeOr {outer : List Tree} (h : Tree.squeezeEach outer = [] → outer = [])
    (run : List Tree) :
    Tree.squeezeEach (closeOr outer run)
      = closeOr (Tree.squeezeEach outer) (Tree.squeezeEach run) := by
  -- an `or` node is begun just when something is before the operand, with blanks or without
  by_cases hne : outer = []
  · subst hne
    simp
  · rw [closeOr_of_ne_nil hne, closeOr_of_ne_nil fun hnil => hne (h hnil)]
    simp

theorem Chain.squeezeEach_trees {c : Chain} (h : c.Grounded) :
    Tree.squeezeEach c.trees = c.squeeze.trees := by
  cases c with
  | empty => simp [trees, squeeze]
  | operand outer run => exact squeezeEach_closeOr h run
  | afterAnd outer run => simp [trees, squeeze, squeezeEach_closeOr h, Tree.binary]
  | afterOr outer => simp [trees, squeeze, Tree.binary]

namespace Group

/-- The group without the blanks in it. -/
def squeeze (g : Group) : Group :=
  ⟨Tree.squeezeEach g.settled, g.chain.squeeze⟩

theorem squeezeEach_trees {g : Group} (h : g.chain.Grounded) :
    Tree.squeezeEach g.trees = g.squeeze.trees := by
  simp [trees, squeeze, Chain.squeezeEach_trees h]

theorem squeeze_addBlank (g : Group) {t : Token} (ht : t.kind = .blank) :
    (g.addBlank t).squeeze = g.squeeze := by
  rcases g with ⟨settled, chain⟩
  cases chain <;> simp [addBlank, squeeze, Chain.squeeze, Tree.squeezeEach_token_blank ht]

theorem grounded_addBlank {g : Group} {t : Token} (ht : t.kind = .blank)
    (h : g.chain.Grounded) : (g.addBlank t).chain.Grounded := by
  rcases g with ⟨settled, chain⟩
  cases chain <;>
    simp_all [addBlank, Chain.Grounded, Tree.squeezeEach_token_blank ht]

theorem squeeze_addTerm (g : Group) (k : NodeKind) (cs : List Tree) :
    (g.addTerm (.node k cs)).squeeze = g.squeeze.addTerm (Tree.node k cs).squeeze := by
  rcases g with ⟨settled, chain⟩
  cases chain <;> simp [addTerm, squeeze, Chain.squeeze, Tree.binary]

theorem grounded_addTerm {g : Group} (tree : Tree) (h : g.chain.Grounded) :
    (g.addTerm tree).chain.Grounded := by
  rcases g with ⟨settled, chain⟩
  cases chain with
  | empty => exact fun _ => rfl
  | operand outer run => exact h
  | afterAnd outer run => exact h
  | afterOr outer => exact fun hnil => absurd hnil h

theorem squeeze_addKeyword {g : Group} (h : g.chain.Grounded) (op : Connective) {t : Token}
    (ht : t.kind ≠ .blank) :
    (g.addKeyword op t).squeeze = g.squeeze.addKeyword op t := by
  rcases g with ⟨settled, chain⟩
  have herror : (Tree.leaf .error t).squeeze = Tree.leaf .error t := by
    simp [Tree.leaf, Tree.squeeze]
  cases op <;> cases chain <;>
    simp_all [addKeyword, addAnd, addOr, squeeze, Chain.squeeze, Chain.Grounded, Tree.binary,
      Tree.squeezeEach_token ht, squeezeEach_closeOr, Tree.leaf]

theorem grounded_addKeyword {g : Group} (h : g.chain.Grounded) (op : Connective) {t : Token}
    (ht : t.kind ≠ .blank) : (g.addKeyword op t).chain.Grounded := by
  rcases g with ⟨settled, chain⟩
  cases op <;> cases chain <;>
    simp_all [addKeyword, addAnd, addOr, Chain.Grounded, Tree.squeezeEach_token ht, Tree.binary]

end Group

/-! ## Squeezing a whole region -/

namespace Nest

/-- The nest without the blanks in its groups. -/
def squeeze (n : Nest) : Nest :=
  ⟨n.group.squeeze, n.around.map Group.squeeze⟩

/-- Whether every group of a nest is grounded. -/
def Grounded (n : Nest) : Prop :=
  n.group.chain.Grounded ∧ ∀ g ∈ n.around, g.chain.Grounded

theorem grounded_step {n : Nest} {i : Item} (h : n.Grounded) (hi : i.Proper) :
    (n.step i).Grounded := by
  obtain ⟨hg, haround⟩ := h
  rcases n with ⟨g, around⟩
  cases i with
  | blank t => exact ⟨Group.grounded_addBlank hi hg, haround⟩
  | keyword op t =>
      have ht : t.kind ≠ .blank := by simp [show t.kind = .keyword op from hi]
      exact ⟨Group.grounded_addKeyword hg op ht, haround⟩
  | opening t => exact ⟨trivial, List.forall_mem_cons.2 ⟨hg, haround⟩⟩
  | term tree => exact ⟨Group.grounded_addTerm tree hg, haround⟩
  | closing t =>
      cases around with
      | nil => exact ⟨Group.grounded_addTerm _ hg, haround⟩
      | cons outer around =>
          obtain ⟨houter, hrest⟩ := List.forall_mem_cons.1 haround
          exact ⟨Group.grounded_addTerm _ houter, hrest⟩

/-- A blank leaves the squeezed nest as it is. -/
theorem squeeze_step_blank (n : Nest) {t : Token} (ht : t.kind = .blank) :
    (n.step (.blank t)).squeeze = n.squeeze := by
  simp [step, squeeze, Group.squeeze_addBlank _ ht]

/-- Any other item is joined to the squeezed nest as to the nest. -/
theorem squeeze_step {n : Nest} {i : Item} (h : n.Grounded) (hi : i.Proper)
    (hsolid : i.isBlank = false) : (n.step i).squeeze = n.squeeze.step i := by
  obtain ⟨hg, haround⟩ := h
  rcases n with ⟨g, around⟩
  cases i with
  | blank t => cases hsolid
  | keyword op t =>
      have ht : t.kind ≠ .blank := by simp [show t.kind = .keyword op from hi]
      simp [step, squeeze, Group.squeeze_addKeyword hg op ht]
  | opening t =>
      have ht : t.kind ≠ .blank := by simp [show t.kind = .leftParen from hi]
      simp [step, squeeze, Group.ofTrees, Group.squeeze, Chain.squeeze, Tree.squeezeEach_token ht]
  | term tree =>
      obtain ⟨k, cs, rfl, hk⟩ := hi
      have htree : (Tree.node k cs).squeeze = .node k cs := by
        cases k <;> simp_all [Tree.squeeze, NodeKind.isTerm]
      simp [step, squeeze, Group.squeeze_addTerm, htree]
  | closing t =>
      have ht : t.kind ≠ .blank := by simp [show t.kind = .rightParen from hi]
      cases around with
      | nil =>
          simp [step, squeeze, Tree.leaf, Group.squeeze_addTerm, Tree.squeeze]
      | cons outer around =>
          simp [step, squeeze, Group.squeeze_addTerm, Group.squeezeEach_trees hg,
            Tree.squeezeEach_token ht]

theorem squeezeEach_finishFrom (g : Group) (around : List Group) (hg : g.chain.Grounded)
    (haround : ∀ x ∈ around, x.chain.Grounded) :
    Tree.squeezeEach (finishFrom g around)
      = finishFrom g.squeeze (around.map Group.squeeze) := by
  induction around generalizing g with
  | nil => exact Group.squeezeEach_trees hg
  | cons outer around ih =>
      rw [finishFrom, ih _ (Group.grounded_addTerm _ (haround outer (by simp)))
        fun x hx => haround x (by simp [hx])]
      rw [Group.squeeze_addTerm, Tree.squeeze_clause, Group.squeezeEach_trees hg]
      rfl

/-- Joining the solid items to the squeezed nest is joining all items and then squeezing. -/
theorem squeeze_foldl_step {n : Nest} {is : List Item} (h : n.Grounded)
    (hproper : ∀ i ∈ is, i.Proper) :
    (is.foldl step n).Grounded ∧ (is.foldl step n).squeeze = (solid is).foldl step n.squeeze := by
  induction is generalizing n with
  | nil => exact ⟨h, rfl⟩
  | cons i is ih =>
      have hi := hproper i (by simp)
      obtain ⟨hgrounded, hfold⟩ :=
        ih (grounded_step h hi) fun x hx => hproper x (by simp [hx])
      refine ⟨hgrounded, ?_⟩
      rw [List.foldl_cons, hfold]
      -- a blank changes nothing once the nest is squeezed, and any other item is joined as it is
      cases hblank : i.isBlank with
      | true =>
          cases i <;> try cases hblank
          rw [solid_cons_blank, squeeze_step_blank n hi]
      | false => rw [solid_cons hblank, List.foldl_cons, squeeze_step h hi hblank]

end Nest

/-- **Only the solid items decide how a region is joined.** -/
theorem squeezeEach_joined {is : List Item} (h : ∀ i ∈ is, i.Proper) :
    Tree.squeezeEach (joined is) = joined (solid is) := by
  have hstart : Nest.start.Grounded := ⟨trivial, by simp [Nest.start]⟩
  obtain ⟨⟨hg, haround⟩, hfold⟩ := Nest.squeeze_foldl_step hstart h
  rw [joined, Nest.finish, Nest.squeezeEach_finishFrom _ _ hg haround]
  show (is.foldl Nest.step Nest.start).squeeze.finish = _
  rw [hfold]
  rfl

theorem squeezeEach_regionTrees (ts : List Token) :
    Tree.squeezeEach (regionTrees ts) = joined (solid (items ts)) :=
  squeezeEach_joined (proper_items ts)

end CardQuery
