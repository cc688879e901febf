import CardQuery.Proofs.Cursor.Climb
import CardQuery.Proofs.Editor.Positions
import CardQuery.Proofs.Expr.Terms
import CardQuery.Proofs.Tree.Preorder

/-!
# What touches an offset

The tokens of a text lie side by side and none is empty, so an offset before the end is inside one
token or at its start, and an offset behind the start is inside one or at its end. Every node that
has the offset inside it is around that token (`mem_ancestors_of_holds`), and no term is around
another, so a token is in one term at most (`find?_isTerm_ancestors`).

Main statements: the node that an offset is in, at the start of a term (`currentAt?_of_start`),
behind the start of one (`currentAt?_of_behind`), and where there is none (`currentAt?_of_free`).
-/

set_option autoImplicit false

namespace CardQuery

namespace Tree

/-! ## Tokens side by side -/

theorem pairwise_placeTokens (start : Nat) (ts : List Token) :
    (placeTokens start ts).Pairwise fun p q => p.start + p.token.width ≤ q.start := by
  induction ts generalizing start with
  | nil => exact .nil
  | cons t ts ih =>
      rw [placeTokens, List.pairwise_cons]
      exact ⟨fun q hq => (placeTokens_bounds hq).2.1, ih _⟩

/-- No token begins before those before it end. -/
theorem pairwise_leaves (t : Tree) : t.leaves.Pairwise fun f g => f.stop ≤ g.start := by
  have hplaced := (pairwise_placeTokens 0 t.tokens).map
    (S := fun (x y : Tree × Nat) => x.2 + x.1.width ≤ y.2)
    (fun p : PlacedToken => (token p.token, p.start)) fun p q h => by simpa [width] using h
  rw [← leaves_eq_placeTokens, List.pairwise_map] at hplaced
  exact hplaced

/-- At each byte there is one token. -/
theorem eq_of_mem_leaves {t : Tree} {f g : Focus} (hf : f ∈ t.leaves) (hg : g ∈ t.leaves)
    {byte : Nat} (hfbyte : f.start ≤ byte ∧ byte < f.stop)
    (hgbyte : g.start ≤ byte ∧ byte < g.stop) : f = g := by
  by_contra hne
  have hsymm : Std.Symm fun f g : Focus => f.stop ≤ g.start ∨ g.stop ≤ f.start :=
    ⟨fun _ _ h => h.symm⟩
  have hapart : t.leaves.Pairwise fun f g => f.stop ≤ g.start ∨ g.stop ≤ f.start :=
    (pairwise_leaves t).imp Or.inl
  have hbyte := hapart.forall hf hg hne
  omega

/-- **A place that has a byte inside it stands around the token at that byte.** -/
theorem mem_ancestors_of_holds {t : Tree} {f c : Focus} (hf : f ∈ t.leaves) (hc : c ∈ t.focuses)
    {byte : Nat} (hfbyte : f.start ≤ byte ∧ byte < f.stop)
    (hcbyte : c.start ≤ byte ∧ byte < c.stop) : c ∈ f :: f.ancestors := by
  obtain ⟨g, hg, hleaf, hgbyte⟩ :=
    exists_leaf_focusesFrom c.above hcbyte.1 hcbyte.2
  have hgleaf : g ∈ t.leaves :=
    List.mem_filter.2 ⟨mem_focusesFrom_trans hc hg, by simp [hleaf]⟩
  rw [eq_of_mem_leaves hf hgleaf hfbyte hgbyte]
  exact mem_ancestors_of_mem_focusesFrom hg

end Tree

/-! ## No term in a term -/

theorem Climb.not_isTerm {above : List Step} (h : Climb above) :
    ∀ s ∈ above, s.kind.isTerm = false := by
  induction h with
  | program hs => simp [hs, NodeKind.isTerm]
  | domain hs _ hp => simp [hs, hp, NodeKind.isTerm]
  | queryBody hs _ hq _ _ hp => simp [hs, hq, hp, NodeKind.isTerm]
  | clause hs _ _ ih => exact List.forall_mem_cons.2 ⟨by rw [hs]; rfl, ih⟩
  | binary hs _ _ _ ih => exact List.forall_mem_cons.2 ⟨by rw [hs]; rfl, ih⟩

namespace Focus

/-- What stands around a place has the kinds of its steps. -/
theorem exists_step_of_mem_ancestorsFrom {t : Tree} {above : List Step} {c : Focus}
    (hc : c ∈ ancestorsFrom t above) : ∃ s ∈ above, c.tree.kind? = some s.kind := by
  induction above generalizing t with
  | nil => cases hc
  | cons s above ih =>
      rcases List.mem_cons.1 hc with rfl | hc
      · exact ⟨s, List.mem_cons_self, rfl⟩
      · obtain ⟨s', hs', hkind⟩ := ih hc
        exact ⟨s', List.mem_cons_of_mem _ hs', hkind⟩

/-- No term is around another. -/
theorem not_isTerm_of_mem_ancestors {c a : Focus} (h : c.whole.OrderlyProgram)
    (hc : c.isTerm = true) (ha : a ∈ c.ancestors) : a.isTerm = false := by
  obtain ⟨s, hs, hkind⟩ := exists_step_of_mem_ancestorsFrom ha
  have hnot := (climb h hc).not_isTerm s hs
  by_contra hterm
  obtain ⟨k, hk, htermKind, -⟩ := exists_kind_of_isTerm (by simpa using hterm)
  rw [hkind, Option.some.injEq] at hk
  rw [hk, htermKind] at hnot
  cases hnot

/-- Of two places around a place, one is around the other. -/
theorem ancestorsFrom_total {t : Tree} {above : List Step} {b c : Focus}
    (hb : b ∈ ancestorsFrom t above) (hc : c ∈ ancestorsFrom t above) :
    b = c ∨ c ∈ b.ancestors ∨ b ∈ c.ancestors := by
  induction above generalizing t with
  | nil => cases hb
  | cons s above ih =>
      rcases List.mem_cons.1 hb with rfl | hb
      · rcases List.mem_cons.1 hc with rfl | hc
        · exact Or.inl rfl
        · exact Or.inr (Or.inl hc)
      · rcases List.mem_cons.1 hc with rfl | hc
        · exact Or.inr (Or.inr hb)
        · exact ih hb hc

/-- A place is in one term at most, so this is the nearest. -/
theorem find?_isTerm_ancestors {g c : Focus} (h : g.whole.OrderlyProgram)
    (hc : c ∈ g.ancestors) (hterm : c.isTerm = true) : g.ancestors.find? isTerm = some c := by
  cases hfind : g.ancestors.find? isTerm with
  | none =>
      have hnone := List.find?_eq_none.1 hfind c hc
      exact absurd hterm hnone
  | some b =>
      have hb := List.mem_of_find?_eq_some hfind
      have hbterm : b.isTerm = true := List.find?_some hfind
      have hwhole : ∀ a ∈ g.ancestors, a.whole.OrderlyProgram := fun a ha => by
        rw [whole_of_mem_ancestorsFrom ha]
        exact h
      rcases ancestorsFrom_total hb hc with rfl | hcb | hbc
      · rfl
      · rw [not_isTerm_of_mem_ancestors (hwhole b hb) hbterm hcb] at hterm
        cases hterm
      · rw [not_isTerm_of_mem_ancestors (hwhole c hc) hterm hbc] at hbterm
        cases hbterm

end Focus

/-! ## Terms that touch an offset -/

/-- What stands around a place starts where it does or before, and ends where it does or after. -/
theorem Focus.StandsIn.bounds_of_mem_ancestors {whole : Tree} {f c : Focus} (h : f.StandsIn whole)
    (hc : c ∈ f.ancestors) : c.start ≤ f.start ∧ f.stop ≤ c.stop := by
  rcases f with ⟨t, start, above⟩
  have hmem : c ∈ ancestorsFrom t above := hc
  clear hc
  induction above generalizing t start with
  | nil => cases hmem
  | cons s above ih =>
      obtain ⟨hparent, hstart, hstop⟩ := h.up? (g := ⟨s.fill t, s.start, above⟩) rfl
      rcases List.mem_cons.1 hmem with rfl | hmem
      · exact ⟨hstart, hstop⟩
      · have hbounds := ih _ _ hparent hmem
        omega

theorem List.findSome?_eq_some_of_forall {α β : Type} {f : α → Option β} {b : β} {xs : List α}
    (hall : ∀ x ∈ xs, f x = none ∨ f x = some b) {x : α} (hx : x ∈ xs) (hb : f x = some b) :
    xs.findSome? f = some b := by
  induction xs with
  | nil => cases hx
  | cons y ys ih =>
      rw [List.findSome?_cons]
      rcases hall y List.mem_cons_self with hnone | hsome
      · rcases List.mem_cons.1 hx with rfl | hx
        · rw [hb] at hnone
          cases hnone
        · rw [hnone]
          exact ih (fun z hz => hall z (List.mem_cons_of_mem _ hz)) hx
      · rw [hsome]

namespace Tree

variable {t : Text} {offset : Nat}

theorem mem_tokensAt {t : Tree} {f : Focus} : f ∈ t.tokensAt offset ↔
    f ∈ t.leaves ∧
      ((f.start ≤ offset ∧ offset < f.stop) ∨ (f.start < offset ∧ offset = f.stop)) := by
  simp only [tokensAt, List.mem_append, List.mem_filter, Bool.and_eq_true, decide_eq_true_eq,
    beq_iff_eq]
  exact and_or_left.symm

theorem mem_focuses_of_mem_terms {t : Tree} {c : Focus} (hc : c ∈ t.terms) : c ∈ t.focuses :=
  (List.mem_filter.1 (List.mem_filter.1 hc).1).1

theorem isTerm_of_mem_terms {t : Tree} {c : Focus} (hc : c ∈ t.terms) : c.isTerm = true :=
  (List.mem_filter.1 hc).2

theorem orderlyProgram_of_mem_leaves {g : Focus} (hg : g ∈ (parse t).leaves) :
    g.whole.OrderlyProgram := by
  rw [whole_of_mem_leaves hg]
  exact orderlyProgram_parse t

/-- A term that has a byte inside is the one around the token at that byte. -/
theorem find?_isTerm_of_holds {g c : Focus} {byte : Nat} (hg : g ∈ (parse t).leaves)
    (hc : c ∈ (parse t).terms) (hgbyte : g.start ≤ byte ∧ byte < g.stop)
    (hcbyte : c.start ≤ byte ∧ byte < c.stop) : g.ancestors.find? Focus.isTerm = some c := by
  have hterm := isTerm_of_mem_terms hc
  refine Focus.find?_isTerm_ancestors (orderlyProgram_of_mem_leaves hg) ?_ hterm
  rcases List.mem_cons.1 (mem_ancestors_of_holds hg (mem_focuses_of_mem_terms hc) hgbyte hcbyte)
    with rfl | hmem
  · -- a token is no term
    rcases c with ⟨u | ⟨k, cs⟩, start, above⟩
    · cases hterm
    · cases (List.mem_filter.1 hg).2
  · exact hmem

/-- What is around a token is a place of the tree that has the token inside. -/
theorem holds_of_mem_ancestors {t : Tree} {g c : Focus} (hg : g ∈ t.leaves)
    (hc : c ∈ g.ancestors) : c ∈ t.focuses ∧ c.start ≤ g.start ∧ g.stop ≤ c.stop := by
  have hplace : g ∈ t.focuses := (List.mem_filter.1 hg).1
  exact ⟨mem_focuses_of_mem_ancestors hplace hc,
    (standsIn_of_mem_focuses hplace).bounds_of_mem_ancestors hc⟩

theorem mem_terms_of_mem_ancestors {t : Tree} {g c : Focus} (hg : g ∈ t.leaves)
    (hc : c ∈ g.ancestors) (hterm : c.isTerm = true) : c ∈ t.terms := by
  obtain ⟨k, hk, -, -⟩ := Focus.exists_kind_of_isTerm hterm
  have hnode : c.tree.isNode = true := by rw [isNode, hk]; rfl
  exact List.mem_filter.2 ⟨List.mem_filter.2 ⟨(holds_of_mem_ancestors hg hc).1, hnode⟩, hterm⟩

/-- There are tokens in every term. -/
theorem exists_token_of_arranged {k : NodeKind} {cs : List Tree} (hterm : k.isTerm = true)
    (h : (node k cs).All NodeKind.Arranged) : ∃ x, x ∈ (node k cs).tokens := by
  rw [all_node] at h
  have hleaf : ∀ {j : NodeKind} {ds : List Tree}, j.isTagPart = true → j.Arranged ds →
      ∃ x, x ∈ (node j ds).tokens := by
    intro j ds hj hds
    obtain ⟨ts, hne, rfl⟩ := hds.exists_tokens hj
    obtain ⟨x, rest, rfl⟩ := List.exists_cons_of_ne_nil hne
    exact ⟨x, by simp⟩
  cases k with
  | argument | literal => exact hleaf rfl h.1
  | tag =>
      obtain ⟨hnodes, hparts⟩ := h.1.parts
      cases cs with
      | nil => cases hparts
      | cons c cs =>
          -- the first part of a tag has tokens
          rw [allOf_cons] at h
          obtain ⟨hc, -⟩ := List.forall_mem_cons.1 hnodes
          obtain ⟨hpart, -⟩ := List.forall_mem_cons.1 h.1.nests
          cases c with
          | token t => cases hc
          | node j ds =>
              have harranged := h.2.1
              rw [all_node] at harranged
              obtain ⟨x, hx⟩ := hleaf hpart harranged.1
              exact ⟨x, by rw [tokens_node, tokensOf_cons]; exact List.mem_append_left _ hx⟩
  | _ => cases hterm

/-- A node of a text is arranged as its kind asks for. -/
theorem exists_arranged {f : Focus} (hf : f ∈ (parse t).focuses) {k : NodeKind}
    (hk : f.tree.isKind k = true) : ∃ cs, f.tree = .node k cs ∧ k.Arranged cs := by
  obtain ⟨cs, htree⟩ := exists_node_of_isKind hk
  have harranged := all_of_mem_focuses (all_arranged_parse t) hf
  rw [htree, all_node] at harranged
  exact ⟨cs, htree, harranged.1⟩

/-- A place with a token in it is not empty. -/
theorem start_lt_stop_of_mem_tokens {c : Focus} (hplace : c ∈ (parse t).focuses) {x : Token}
    (hx : x ∈ c.tree.tokens) : c.start < c.stop := by
  have hpos := width_pos_of_mem_tokens_parse ((standsIn_of_mem_focuses hplace).mem_tokens hx)
  obtain ⟨us, vs, hsplit⟩ := List.append_of_mem hx
  have hwidth : x.width ≤ c.tree.width := by
    rw [← tokensWidth_tokens, hsplit, tokensWidth_append, tokensWidth]
    omega
  rw [Focus.stop]
  omega

theorem width_pos_of_mem_terms {c : Focus} (hc : c ∈ (parse t).terms) : c.start < c.stop := by
  have hplace := mem_focuses_of_mem_terms hc
  obtain ⟨k, cs, htree, hk⟩ := c.isTerm_kind (isTerm_of_mem_terms hc)
  have harranged := all_of_mem_focuses (all_arranged_parse t) hplace
  rw [htree] at harranged
  obtain ⟨x, hx⟩ := exists_token_of_arranged hk harranged
  exact start_lt_stop_of_mem_tokens hplace (by rwa [htree])

/-! ## The node that an offset is in -/

theorem exists_leaf_at {t : Tree} {c : Focus} (hc : c ∈ t.focuses) {byte : Nat}
    (hbyte : c.start ≤ byte ∧ byte < c.stop) :
    ∃ g ∈ t.leaves, g.start ≤ byte ∧ byte < g.stop := by
  obtain ⟨g, hg, hleaf, hgbyte⟩ :=
    exists_leaf_focusesFrom c.above hbyte.1 hbyte.2
  exact ⟨g, List.mem_filter.2 ⟨mem_focusesFrom_trans hc hg, by simp [hleaf]⟩, hgbyte⟩

/-- An offset at which a term starts is in this term. -/
theorem currentAt?_of_start {c : Focus} (hc : c ∈ (parse t).terms) (hstart : c.start = offset) :
    (parse t).currentAt? offset = some c := by
  have hcbyte : c.start ≤ offset ∧ offset < c.stop := by
    have hpos := width_pos_of_mem_terms hc
    omega
  obtain ⟨g, hg, hgbyte⟩ := exists_leaf_at (mem_focuses_of_mem_terms hc) hcbyte
  have hfirst : ((parse t).leaves.filter fun f => f.start ≤ offset && offset < f.stop).findSome?
      (fun f => f.ancestors.find? Focus.isTerm) = some c := by
    refine List.findSome?_eq_some_of_forall (x := g) (fun f hf => Or.inr ?_) ?_ ?_
    · obtain ⟨hf, hfbyte⟩ := List.mem_filter.1 hf
      exact find?_isTerm_of_holds hf hc (by simpa using hfbyte) hcbyte
    · exact List.mem_filter.2 ⟨hg, by simpa using hgbyte⟩
    · exact find?_isTerm_of_holds hg hc hgbyte hcbyte
  rw [currentAt?, ancestorAt?, tokensAt, List.findSome?_append, hfirst]
  rfl

/-- Where no term starts, an offset in or behind a token is in the term around this token. -/
theorem currentAt?_of_behind {f c : Focus} (hf : f ∈ (parse t).leaves)
    (hbehind : f.start < offset ∧ offset ≤ f.stop) (hc : c ∈ f.ancestors)
    (hterm : c.isTerm = true) (hfree : ∀ d ∈ (parse t).terms, d.start ≠ offset) :
    (parse t).currentAt? offset = some c := by
  have hself : f.ancestors.find? Focus.isTerm = some c :=
    Focus.find?_isTerm_ancestors (orderlyProgram_of_mem_leaves hf) hc hterm
  have hall : ∀ g ∈ (parse t).tokensAt offset, g.ancestors.find? Focus.isTerm = none ∨
      g.ancestors.find? Focus.isTerm = some c := by
    intro g hg
    obtain ⟨hg, htouch⟩ := mem_tokensAt.1 hg
    cases hfind : g.ancestors.find? Focus.isTerm with
    | none => exact Or.inl rfl
    | some d =>
        -- a term around the other token starts before the offset, so the byte there is in it
        have hd := List.mem_of_find?_eq_some hfind
        have hdterm := mem_terms_of_mem_ancestors hg hd (List.find?_some hfind)
        obtain ⟨-, hdstart, hdstop⟩ := holds_of_mem_ancestors hg hd
        have hne := hfree d hdterm
        have hfbyte : f.start ≤ offset - 1 ∧ offset - 1 < f.stop := by omega
        have hagain := find?_isTerm_of_holds hf hdterm hfbyte (by omega)
        rw [hself] at hagain
        exact Or.inr hagain.symm
  have hmem : f ∈ (parse t).tokensAt offset := mem_tokensAt.2 ⟨hf, by omega⟩
  rw [currentAt?, ancestorAt?, List.findSome?_eq_some_of_forall hall hmem hself]
  rfl

/-- An offset that touches no term is in the node around the token there. -/
theorem currentAt?_of_free {g p : Focus} (hg : g ∈ (parse t).leaves)
    (hbyte : g.start ≤ offset ∧ offset < g.stop) (hp : g.up? = some p)
    (hfree : ∀ c ∈ (parse t).terms, ¬ (c.start ≤ offset ∧ offset ≤ c.stop)) :
    (parse t).currentAt? offset = some p := by
  have hnone : (parse t).ancestorAt? offset Focus.isTerm = none := by
    rw [ancestorAt?, List.findSome?_eq_none_iff]
    intro f hf
    obtain ⟨hf, htouch⟩ := mem_tokensAt.1 hf
    rw [List.find?_eq_none]
    intro c hc hterm
    obtain ⟨-, hstart, hstop⟩ := holds_of_mem_ancestors hf hc
    exact hfree c (mem_terms_of_mem_ancestors hf hc hterm) (by omega)
  have hfirst : ((parse t).leaves.filter fun f => f.start ≤ offset && offset < f.stop).findSome?
      Focus.up? = some p := by
    refine List.findSome?_eq_some_of_forall (x := g) (fun f hf => Or.inr ?_) ?_ hp
    · obtain ⟨hf, hfbyte⟩ := List.mem_filter.1 hf
      rw [eq_of_mem_leaves hf hg (by simpa using hfbyte) hbyte]
      exact hp
    · exact List.mem_filter.2 ⟨hg, by simpa using hbyte⟩
  rw [currentAt?, hnone, tokensAt, List.findSome?_append, hfirst]
  rfl

end Tree

end CardQuery
