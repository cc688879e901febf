import CardQuery.Tree.Focus

/-!
# Places around places

What stands around a place is again a place of the tree, and goes on with what stands around that.
In preorder a place comes before all that is in it, and before all that is behind it.

Main statements: a subtree stands around all places in it (`mem_ancestors_of_mem_focusesFrom`), and
of two places the later is in the earlier or behind it (`pairwise_focuses`).
-/

set_option autoImplicit false

namespace CardQuery

namespace Focus

/-- The places around a place go on with those around any of them. -/
theorem exists_ancestorsFrom_eq {t : Tree} {above : List Step} {c : Focus}
    (hc : c ∈ ancestorsFrom t above) :
    ∃ below, ancestorsFrom t above = below ++ c :: c.ancestors := by
  induction above generalizing t with
  | nil => cases hc
  | cons s above ih =>
      rcases List.mem_cons.1 hc with rfl | hc
      · exact ⟨[], rfl⟩
      · obtain ⟨below, hbelow⟩ := ih hc
        exact ⟨_ :: below, by rw [ancestorsFrom, hbelow]; rfl⟩

theorem mem_ancestors_trans {a b c : Focus} (hab : b ∈ a.ancestors) (hbc : c ∈ b.ancestors) :
    c ∈ a.ancestors := by
  obtain ⟨below, hbelow⟩ := exists_ancestorsFrom_eq hab
  rw [ancestors, hbelow]
  exact List.mem_append_right _ (List.mem_cons_of_mem _ hbc)

end Focus

namespace Tree

mutual

/-- A subtree stands around all places in it. -/
theorem mem_ancestors_of_mem_focusesFrom {above : List Step} {start : Nat} {t : Tree} {g : Focus}
    (hg : g ∈ focusesFrom above start t) : ⟨t, start, above⟩ ∈ g :: g.ancestors := by
  cases t with
  | token t =>
      rw [focusesFrom, List.mem_singleton] at hg
      rw [hg]
      exact List.mem_cons_self
  | node k cs =>
      rw [focusesFrom, List.mem_cons] at hg
      rcases hg with rfl | hg
      · exact List.mem_cons_self
      · exact List.mem_cons_of_mem _ (mem_ancestors_of_mem_focusesOf hg)

theorem mem_ancestors_of_mem_focusesOf {above : List Step} {k : NodeKind} {nodeStart : Nat}
    {before : List Tree} {start : Nat} {cs : List Tree} {g : Focus}
    (hg : g ∈ focusesOf above k nodeStart before start cs) :
    ⟨.node k (before ++ cs), nodeStart, above⟩ ∈ g.ancestors := by
  cases cs with
  | nil => cases hg
  | cons c cs =>
      rw [focusesOf, List.mem_append] at hg
      rcases hg with hg | hg
      · -- the child is the place itself, or is around it, and the node is around the child
        have hparent : ⟨.node k (before ++ c :: cs), nodeStart, above⟩
            ∈ (Focus.mk c start (⟨k, nodeStart, before, cs⟩ :: above)).ancestors :=
          List.mem_cons_self
        rcases List.mem_cons.1 (mem_ancestors_of_mem_focusesFrom hg) with rfl | hchild
        · exact hparent
        · exact Focus.mem_ancestors_trans hchild hparent
      · have hrest := mem_ancestors_of_mem_focusesOf hg
        rwa [List.append_assoc] at hrest

end

mutual

/-- The places in a place of a subtree are places of it. -/
theorem mem_focusesFrom_trans {above : List Step} {start : Nat} {t : Tree} {c g : Focus}
    (hc : c ∈ focusesFrom above start t) (hg : g ∈ focusesFrom c.above c.start c.tree) :
    g ∈ focusesFrom above start t := by
  cases t with
  | token t =>
      rw [focusesFrom, List.mem_singleton] at hc
      rwa [hc] at hg
  | node k cs =>
      rw [focusesFrom, List.mem_cons] at hc
      rcases hc with rfl | hc
      · exact hg
      · rw [focusesFrom, List.mem_cons]
        exact Or.inr (mem_focusesOf_trans hc hg)

theorem mem_focusesOf_trans {above : List Step} {k : NodeKind} {nodeStart : Nat}
    {before : List Tree} {start : Nat} {cs : List Tree} {c g : Focus}
    (hc : c ∈ focusesOf above k nodeStart before start cs)
    (hg : g ∈ focusesFrom c.above c.start c.tree) :
    g ∈ focusesOf above k nodeStart before start cs := by
  cases cs with
  | nil => cases hc
  | cons x cs =>
      rw [focusesOf, List.mem_append] at hc ⊢
      rcases hc with hc | hc
      · exact Or.inl (mem_focusesFrom_trans hc hg)
      · exact Or.inr (mem_focusesOf_trans hc hg)

end

mutual

/-- What stands around a place in a subtree is a place in it, or stands around the subtree. -/
theorem mem_focusesFrom_of_mem_ancestors {above : List Step} {start : Nat} {t : Tree} {c g : Focus}
    (hg : g ∈ focusesFrom above start t) (hc : c ∈ g.ancestors) :
    c ∈ focusesFrom above start t ∨ c ∈ Focus.ancestorsFrom t above := by
  cases t with
  | token t =>
      rw [focusesFrom, List.mem_singleton] at hg
      rw [hg] at hc
      exact Or.inr hc
  | node k cs =>
      rw [focusesFrom, List.mem_cons] at hg
      rcases hg with rfl | hg
      · exact Or.inr hc
      · rw [focusesFrom, List.mem_cons]
        rcases mem_focusesOf_of_mem_ancestors hg hc with hc | rfl | hc
        · exact Or.inl (Or.inr hc)
        · exact Or.inl (Or.inl rfl)
        · exact Or.inr hc

theorem mem_focusesOf_of_mem_ancestors {above : List Step} {k : NodeKind} {nodeStart : Nat}
    {before : List Tree} {start : Nat} {cs : List Tree} {c g : Focus}
    (hg : g ∈ focusesOf above k nodeStart before start cs) (hc : c ∈ g.ancestors) :
    c ∈ focusesOf above k nodeStart before start cs ∨
      c = ⟨.node k (before ++ cs), nodeStart, above⟩ ∨
      c ∈ Focus.ancestorsFrom (.node k (before ++ cs)) above := by
  cases cs with
  | nil => cases hg
  | cons x cs =>
      rw [focusesOf, List.mem_append] at hg ⊢
      rcases hg with hg | hg
      · rcases mem_focusesFrom_of_mem_ancestors hg hc with hc | hc
        · exact Or.inl (Or.inl hc)
        · exact Or.inr (List.mem_cons.1 hc)
      · have hrest := mem_focusesOf_of_mem_ancestors hg hc
        rw [List.append_assoc] at hrest
        exact hrest.imp_left Or.inr

end

theorem mem_focuses_of_mem_ancestors {t : Tree} {c g : Focus} (hg : g ∈ t.focuses)
    (hc : c ∈ g.ancestors) : c ∈ t.focuses := by
  rcases mem_focusesFrom_of_mem_ancestors hg hc with hc | hc
  · exact hc
  · cases hc

mutual

/-- There is a token at each byte of a subtree. -/
theorem exists_leaf_focusesFrom (above : List Step) {start : Nat} {t : Tree} {byte : Nat}
    (hstart : start ≤ byte) (hstop : byte < start + t.width) :
    ∃ g ∈ focusesFrom above start t, g.tree.isNode = false ∧ g.start ≤ byte ∧ byte < g.stop := by
  cases t with
  | token t => exact ⟨⟨.token t, start, above⟩, by simp [focusesFrom], rfl, hstart, hstop⟩
  | node k cs =>
      rw [width] at hstop
      obtain ⟨g, hg, hleaf⟩ := exists_leaf_focusesOf above k start [] hstart hstop
      exact ⟨g, by rw [focusesFrom]; exact List.mem_cons_of_mem _ hg, hleaf⟩

theorem exists_leaf_focusesOf (above : List Step) (k : NodeKind) (nodeStart : Nat)
    (before : List Tree) {start : Nat} {cs : List Tree} {byte : Nat}
    (hstart : start ≤ byte) (hstop : byte < start + widthOf cs) :
    ∃ g ∈ focusesOf above k nodeStart before start cs,
      g.tree.isNode = false ∧ g.start ≤ byte ∧ byte < g.stop := by
  cases cs with
  | nil =>
      rw [widthOf] at hstop
      omega
  | cons c cs =>
      rw [widthOf] at hstop
      by_cases hbyte : byte < start + c.width
      · obtain ⟨g, hg, hleaf⟩ :=
          exists_leaf_focusesFrom (⟨k, nodeStart, before, cs⟩ :: above) hstart hbyte
        exact ⟨g, by rw [focusesOf]; exact List.mem_append_left _ hg, hleaf⟩
      · have hrest : byte < start + c.width + widthOf cs := by omega
        obtain ⟨g, hg, hleaf⟩ :=
          exists_leaf_focusesOf above k nodeStart (before ++ [c]) (Nat.le_of_not_lt hbyte) hrest
        exact ⟨g, by rw [focusesOf]; exact List.mem_append_right _ hg, hleaf⟩

end

mutual

/-- The places in a subtree have their bytes among its bytes. -/
theorem bounds_of_mem_focusesFrom {above : List Step} {start : Nat} {t : Tree} {g : Focus}
    (hg : g ∈ focusesFrom above start t) : start ≤ g.start ∧ g.stop ≤ start + t.width := by
  cases t with
  | token t =>
      rw [focusesFrom, List.mem_singleton] at hg
      rw [hg]
      exact ⟨Nat.le_refl _, Nat.le_refl _⟩
  | node k cs =>
      rw [focusesFrom, List.mem_cons] at hg
      rcases hg with rfl | hg
      · exact ⟨Nat.le_refl _, Nat.le_refl _⟩
      · rw [width]
        exact bounds_of_mem_focusesOf hg

theorem bounds_of_mem_focusesOf {above : List Step} {k : NodeKind} {nodeStart : Nat}
    {before : List Tree} {start : Nat} {cs : List Tree} {g : Focus}
    (hg : g ∈ focusesOf above k nodeStart before start cs) :
    start ≤ g.start ∧ g.stop ≤ start + widthOf cs := by
  cases cs with
  | nil => cases hg
  | cons c cs =>
      rw [focusesOf, List.mem_append] at hg
      rw [widthOf]
      rcases hg with hg | hg
      · have hbounds := bounds_of_mem_focusesFrom hg
        omega
      · have hbounds := bounds_of_mem_focusesOf hg
        omega

end

/-! ## Children -/

theorem mem_focusesOf_of_mem_childrenFrom {above : List Step} {k : NodeKind} {nodeStart : Nat}
    {before : List Tree} {start : Nat} {cs : List Tree} {c : Focus}
    (hc : c ∈ Focus.childrenFrom above k nodeStart before start cs) :
    c ∈ focusesOf above k nodeStart before start cs ∧
      ∃ s, c.above = s :: above ∧ s.fill c.tree = .node k (before ++ cs) ∧ s.start = nodeStart := by
  induction cs generalizing before start with
  | nil => cases hc
  | cons x cs ih =>
      rw [focusesOf]
      rcases List.mem_cons.1 hc with rfl | hc
      · refine ⟨List.mem_append_left _ ?_, _, rfl, rfl, rfl⟩
        cases x <;> simp [focusesFrom]
      · obtain ⟨hmem, s, habove, hfill, hs⟩ := ih hc
        exact ⟨List.mem_append_right _ hmem, s, habove, by rw [hfill, List.append_assoc]; rfl, hs⟩

/-- The children of a place are places, with the place for their parent. -/
theorem mem_focuses_of_mem_children {t : Tree} {f c : Focus} (hf : f ∈ t.focuses)
    (hc : c ∈ f.children) : c ∈ t.focuses ∧ c.up? = some f := by
  rcases f with ⟨tree, start, above⟩
  cases tree with
  | token t => cases hc
  | node k cs =>
      obtain ⟨hmem, s, habove, hfill, hs⟩ := mem_focusesOf_of_mem_childrenFrom hc
      refine ⟨mem_focusesFrom_trans hf ?_, ?_⟩
      · rw [focusesFrom]
        exact List.mem_cons_of_mem _ hmem
      · rw [Focus.up?, habove]
        simp only [hfill, hs]
        rfl

/-- A child has its bytes among those of its parent. -/
theorem bounds_of_mem_children {f c : Focus} (hc : c ∈ f.children) :
    f.start ≤ c.start ∧ c.stop ≤ f.stop := by
  rcases f with ⟨tree, start, above⟩
  cases tree with
  | token t => cases hc
  | node k cs =>
      have hbounds := bounds_of_mem_focusesOf (mem_focusesOf_of_mem_childrenFrom hc).1
      rwa [← width] at hbounds

/-- At each byte of a node there is a child. -/
theorem exists_child_holds {above : List Step} {k : NodeKind} {nodeStart : Nat}
    {before : List Tree} {start : Nat} {cs : List Tree} {byte : Nat} (hstart : start ≤ byte)
    (hstop : byte < start + widthOf cs) :
    ∃ c ∈ Focus.childrenFrom above k nodeStart before start cs, c.start ≤ byte ∧ byte < c.stop := by
  induction cs generalizing before start with
  | nil =>
      rw [widthOf] at hstop
      omega
  | cons x cs ih =>
      rw [widthOf] at hstop
      by_cases hbyte : byte < start + x.width
      · exact ⟨_, List.mem_cons_self, hstart, hbyte⟩
      · obtain ⟨c, hc, hcbyte⟩ := @ih (before ++ [x]) (start + x.width) (by omega) (by omega)
        exact ⟨c, List.mem_cons_of_mem _ hc, hcbyte⟩

end Tree

/-! ## The order of the places -/

/-- Whether a place can come after another in preorder: it does not begin before it, and is in it
or behind it. -/
def Focus.ComesAfter (g f : Focus) : Prop :=
  f.start ≤ g.start ∧ (f ∈ g.ancestors ∨ f.stop ≤ g.start)

namespace Tree

mutual

theorem pairwise_focusesFrom (above : List Step) (start : Nat) (t : Tree) :
    (focusesFrom above start t).Pairwise fun f g => g.ComesAfter f := by
  cases t with
  | token t => simp [focusesFrom]
  | node k cs =>
      rw [focusesFrom, List.pairwise_cons]
      refine ⟨fun g hg => ⟨?_, Or.inl ?_⟩, pairwise_focusesOf above k start [] start cs⟩
      · exact (bounds_of_mem_focusesOf hg).1
      · exact mem_ancestors_of_mem_focusesOf hg

theorem pairwise_focusesOf (above : List Step) (k : NodeKind) (nodeStart : Nat)
    (before : List Tree) (start : Nat) (cs : List Tree) :
    (focusesOf above k nodeStart before start cs).Pairwise fun f g => g.ComesAfter f := by
  cases cs with
  | nil => simp [focusesOf]
  | cons c cs =>
      rw [focusesOf, List.pairwise_append]
      refine ⟨pairwise_focusesFrom _ start c, pairwise_focusesOf above k nodeStart _ _ cs, ?_⟩
      intro f hf g hg
      have hbehind : f.stop ≤ g.start :=
        Nat.le_trans (bounds_of_mem_focusesFrom hf).2 (bounds_of_mem_focusesOf hg).1
      exact ⟨Nat.le_trans (Nat.le_add_right _ _) hbehind, Or.inr hbehind⟩

end

/-- **In preorder a later place is in an earlier one or behind it.** -/
theorem pairwise_focuses (t : Tree) : t.focuses.Pairwise fun f g => g.ComesAfter f :=
  pairwise_focusesFrom [] 0 t

end Tree

end CardQuery
