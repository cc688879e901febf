import CardQuery.Cursor.Tag
import CardQuery.Proofs.Tree.Nesting

/-!
# Where places stand

A place knows the byte at which its subtree starts. `Focus.StandsIn` says that it is the right one:
a child starts where the children before it end, and the root starts at byte 0. Going up, down or to
any place of a tree keeps this, so wherever a walk through a tree stops, the tokens of the subtree
are those at its bytes.

Main statements: every place of a tree stands in it (`standsIn_of_mem_focuses`), and the tokens of
the tree are those before the place, its own, and those after it (`exists_around`).
-/

set_option autoImplicit false

namespace CardQuery

/-- Whether a subtree with these steps above it stands at a byte of the whole tree. -/
inductive Stands (whole : Tree) : Tree → Nat → List Step → Prop
  | root : Stands whole whole 0 []
  | child {t : Tree} {start : Nat} {s : Step} {above : List Step}
      (hstart : start = s.start + Tree.widthOf s.before)
      (h : Stands whole (s.fill t) s.start above) : Stands whole t start (s :: above)

/-- Whether a place is a place of a tree. -/
def Focus.StandsIn (f : Focus) (whole : Tree) : Prop :=
  Stands whole f.tree f.start f.above

/-- The tokens of the whole tree are those before the subtree, its own, and those after it. -/
theorem Stands.exists_around {whole t : Tree} {start : Nat} {above : List Step}
    (h : Stands whole t start above) : ∃ before after : List Token,
      whole.tokens = before ++ (t.tokens ++ after) ∧ start = tokensWidth before := by
  induction h with
  | root => exact ⟨[], [], by simp, rfl⟩
  | @child t start s above hchild _ ih =>
      obtain ⟨before, after, htokens, hstart⟩ := ih
      refine ⟨before ++ Tree.tokensOf s.before, Tree.tokensOf s.after ++ after, ?_, ?_⟩
      · rw [htokens, Step.fill]
        simp
      · rw [tokensWidth_append, Tree.tokensWidth_tokensOf, hchild, hstart]

theorem Stands.all {whole t : Tree} {start : Nat} {above : List Step}
    {p : NodeKind → List Tree → Prop} (h : Stands whole t start above) (hwhole : whole.All p) :
    t.All p := by
  induction h with
  | root => exact hwhole
  | child _ _ ih =>
      rw [Step.fill, Tree.all_node, Tree.allOf_append, Tree.allOf_cons] at ih
      exact ih.2.2.1

namespace Focus

variable {whole : Tree} {f g : Focus}

theorem ancestors_of_up? (hg : f.up? = some g) : f.ancestors = g :: g.ancestors := by
  rcases f with ⟨t, start, _ | ⟨s, above⟩⟩
  · cases hg
  · cases hg
    rfl

theorem mem_ancestors_of_up? (hg : f.up? = some g) : g ∈ f.ancestors := by
  rw [ancestors_of_up? hg]
  exact List.mem_cons_self

theorem exists_up?_of_mem_ancestors (hg : g ∈ f.ancestors) : ∃ p, f.up? = some p := by
  rcases f with ⟨t, start, _ | ⟨s, above⟩⟩
  · cases hg
  · exact ⟨_, rfl⟩

theorem exists_node_of_up? (hg : f.up? = some g) : ∃ k cs, g.tree = .node k cs := by
  rcases f with ⟨t, start, _ | ⟨s, above⟩⟩
  · cases hg
  · cases hg
    exact ⟨_, _, rfl⟩

theorem parentKind?_of_up? (hg : f.up? = some g) : f.parentKind? = g.tree.kind? := by
  rcases f with ⟨t, start, _ | ⟨s, above⟩⟩
  · cases hg
  · cases hg
    rfl

theorem StandsIn.mem_tokens (h : f.StandsIn whole) {x : Token} (hx : x ∈ f.tree.tokens) :
    x ∈ whole.tokens := by
  obtain ⟨before, after, htokens, -⟩ := Stands.exists_around h
  rw [htokens]
  exact List.mem_append_right _ (List.mem_append_left _ hx)

/-- A parent starts where its child does or before, and ends where it does or after. -/
theorem StandsIn.up? (h : f.StandsIn whole) (hg : f.up? = some g) :
    g.StandsIn whole ∧ g.start ≤ f.start ∧ f.stop ≤ g.stop := by
  rcases f with ⟨t, start, above⟩
  have hstands : Stands whole t start above := h
  cases hstands with
  | root => cases hg
  | @child _ _ s above hstart hparent =>
      cases hg
      refine ⟨hparent, ?_, ?_⟩
      · show s.start ≤ start
        omega
      · simp only [stop, Step.fill, Tree.width, Tree.widthOf_append, Tree.widthOf]
        omega

theorem StandsIn.ancestors (h : f.StandsIn whole) (hg : g ∈ f.ancestors) : g.StandsIn whole := by
  rcases f with ⟨t, start, above⟩
  have hstands : Stands whole t start above := h
  have hmem : g ∈ ancestorsFrom t above := hg
  clear h hg
  induction hstands with
  | root => cases hmem
  | child _ h ih =>
      rcases List.mem_cons.1 hmem with rfl | hmem
      · exact h
      · exact ih hmem

/-- A child stands where the children before it end. -/
theorem standsIn_of_mem_childrenFrom {above : List Step} {k : NodeKind} {nodeStart : Nat}
    {before : List Tree} {start : Nat} {cs : List Tree}
    (h : Stands whole (.node k (before ++ cs)) nodeStart above)
    (hstart : start = nodeStart + Tree.widthOf before)
    (hg : g ∈ childrenFrom above k nodeStart before start cs) : g.StandsIn whole := by
  induction cs generalizing before start with
  | nil => cases hg
  | cons c cs ih =>
      rcases List.mem_cons.1 hg with rfl | hg
      · exact .child hstart h
      · have hrest : Stands whole (.node k ((before ++ [c]) ++ cs)) nodeStart above := by
          simpa using h
        have hnext : start + c.width = nodeStart + Tree.widthOf (before ++ [c]) := by
          rw [Tree.widthOf_append, hstart, Tree.widthOf, Tree.widthOf]
          omega
        exact ih hrest hnext hg

theorem StandsIn.children (h : f.StandsIn whole) (hg : g ∈ f.children) : g.StandsIn whole := by
  rcases f with ⟨t, start, above⟩
  cases t with
  | token t => cases hg
  | node k cs =>
      have hnone : Stands whole (.node k ([] ++ cs)) start above := h
      exact standsIn_of_mem_childrenFrom hnone (by simp [Tree.widthOf]) hg

theorem mem_childrenFrom_append (above : List Step) (k : NodeKind) (nodeStart : Nat)
    (before : List Tree) (start : Nat) (xs : List Tree) (c : Tree) (ys : List Tree) :
    ⟨c, start + Tree.widthOf xs, ⟨k, nodeStart, before ++ xs, ys⟩ :: above⟩
      ∈ childrenFrom above k nodeStart before start (xs ++ c :: ys) := by
  induction xs generalizing before start with
  | nil => simp [childrenFrom, Tree.widthOf]
  | cons x xs ih =>
      rw [List.cons_append, childrenFrom, Tree.widthOf, ← Nat.add_assoc]
      have hrest := ih (before ++ [x]) (start + x.width)
      rw [List.append_assoc, List.singleton_append] at hrest
      exact List.mem_cons_of_mem _ hrest

/-- A place is among the children of its parent. -/
theorem StandsIn.mem_children (h : f.StandsIn whole) (hg : f.up? = some g) : f ∈ g.children := by
  rcases f with ⟨t, start, above⟩
  have hstands : Stands whole t start above := h
  cases hstands with
  | root => cases hg
  | @child _ _ s above hstart _ =>
      cases hg
      rw [hstart]
      exact mem_childrenFrom_append above s.kind s.start [] s.start s.before t s.after

theorem StandsIn.child? (h : f.StandsIn whole) {k : NodeKind} (hg : f.child? k = some g) :
    g.StandsIn whole :=
  h.children (List.mem_of_find?_eq_some hg)

theorem StandsIn.value? (h : f.StandsIn whole) (hg : f.value? = some g) : g.StandsIn whole :=
  h.children (List.mem_of_find?_eq_some hg)

end Focus

namespace Tree

mutual

theorem standsIn_of_mem_focusesFrom {whole t : Tree} {start : Nat} {above : List Step}
    {f : Focus} (h : Stands whole t start above) (hf : f ∈ focusesFrom above start t) :
    f.StandsIn whole := by
  cases t with
  | token t =>
      rw [focusesFrom, List.mem_singleton] at hf
      rw [hf]
      exact h
  | node k cs =>
      rw [focusesFrom, List.mem_cons] at hf
      rcases hf with rfl | hf
      · exact h
      · have hnone : Stands whole (.node k ([] ++ cs)) start above := h
        exact standsIn_of_mem_focusesOf hnone (by simp [widthOf]) hf

theorem standsIn_of_mem_focusesOf {whole : Tree} {above : List Step} {k : NodeKind}
    {nodeStart : Nat} {before : List Tree} {start : Nat} {cs : List Tree} {f : Focus}
    (h : Stands whole (.node k (before ++ cs)) nodeStart above)
    (hstart : start = nodeStart + widthOf before)
    (hf : f ∈ focusesOf above k nodeStart before start cs) : f.StandsIn whole := by
  cases cs with
  | nil => cases hf
  | cons c cs =>
      rw [focusesOf, List.mem_append] at hf
      rcases hf with hf | hf
      · have hchild : Stands whole c start (⟨k, nodeStart, before, cs⟩ :: above) :=
          .child hstart h
        exact standsIn_of_mem_focusesFrom hchild hf
      · have hrest : Stands whole (.node k ((before ++ [c]) ++ cs)) nodeStart above := by
          simpa using h
        have hnext : start + c.width = nodeStart + widthOf (before ++ [c]) := by
          rw [widthOf_append, hstart, widthOf, widthOf]
          omega
        exact standsIn_of_mem_focusesOf hrest hnext hf

end

/-- Every place of a tree stands in it. -/
theorem standsIn_of_mem_focuses {t : Tree} {f : Focus} (hf : f ∈ t.focuses) : f.StandsIn t :=
  standsIn_of_mem_focusesFrom .root hf

/-- A token that touches an offset starts at it or before, and ends at it or after. -/
theorem touches_of_mem_tokensAt {t : Tree} {offset : Nat} {f : Focus}
    (hf : f ∈ t.tokensAt offset) : f.StandsIn t ∧ f.start ≤ offset ∧ offset ≤ f.stop := by
  unfold tokensAt at hf
  have hleaf : ∀ g ∈ t.leaves, g.StandsIn t := fun g hg =>
    standsIn_of_mem_focuses (List.mem_filter.1 hg).1
  rcases List.mem_append.1 hf with hf | hf <;>
    · obtain ⟨hmem, hrange⟩ := List.mem_filter.1 hf
      simp only [Bool.and_eq_true, decide_eq_true_eq, beq_iff_eq] at hrange
      exact ⟨hleaf f hmem, by omega, by omega⟩

theorem standsIn_of_ancestorAt? {t : Tree} {offset : Nat} {p : Focus → Bool} {f : Focus}
    (hf : t.ancestorAt? offset p = some f) : f.StandsIn t := by
  obtain ⟨g, hg, hfound⟩ := List.exists_of_findSome?_eq_some hf
  exact (touches_of_mem_tokensAt hg).1.ancestors (List.mem_of_find?_eq_some hfound)

end Tree

end CardQuery
