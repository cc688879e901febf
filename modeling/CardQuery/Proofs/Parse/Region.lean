import CardQuery.Parse.Program
import CardQuery.Proofs.Parse.Joining

/-!
# Regions without errors

A region without errors is a spelled row of tokens whose solid items are those of one expression,
or none at all. Blanks at its start make no difference, so a domain and the body of a query are
read as any region is.

Main statements: these are exactly the regions without errors (`faultlessEach_regionTrees_iff`),
and what such a region asks is what its expression asks (`Reads.meaning`).
-/

set_option autoImplicit false

namespace CardQuery

/-! ## One region -/

/-- A row of tokens without errors, with the expression that its solid items are, if any. -/
def Reads (ts : List Token) : Option Tree → Prop
  | none => ∃ is, Spells ts is ∧ solid is = []
  | some t => ∃ is, Spells ts is ∧ Shape (.row .or) t ∧ solid is = t.yield

/-- What the region with these tokens asks. -/
def meaning (ts : List Token) : Option Expr :=
  Expr.all? ((Tree.lowerEach (regionTrees ts)).filterMap id)

/-- Every term of a spelled row is spelled somewhere in it. -/
theorem Spells.exists_part_of_mem {ts : List Token} {is : List Item} (h : Spells ts is)
    {tree : Tree} (htree : .term tree ∈ is) : ∃ w e, w <:+: ts ∧ SpelledTerm w tree e := by
  induction h with
  | nil => cases htree
  | @mark t i ts is hi rest ih =>
      rcases List.mem_cons.1 htree with rfl | htree
      · exact absurd hi (Item.ofMark?_ne_term t tree)
      · obtain ⟨w, e, hpart, hw⟩ := ih htree
        exact ⟨w, e, hpart.trans (List.suffix_cons t ts).isInfix, hw⟩
  | @term w ts tree' e is hw hnext rest ih =>
      rcases List.mem_cons.1 htree with hhead | htree
      · cases hhead
        exact ⟨w, e, (List.prefix_append w ts).isInfix, hw⟩
      · obtain ⟨w', e', hpart, hw'⟩ := ih htree
        exact ⟨w', e', hpart.trans (List.suffix_append w ts).isInfix, hw'⟩

theorem Reads.squeezeEach_regionTrees {ts : List Token} {t : Option Tree} (h : Reads ts t) :
    Tree.squeezeEach (regionTrees ts) = t.toList := by
  cases t with
  | none =>
      obtain ⟨is, hspells, hsolid⟩ := h
      rw [CardQuery.squeezeEach_regionTrees, hspells.items_eq, hsolid]
      rfl
  | some t =>
      obtain ⟨is, hspells, hshape, hsolid⟩ := h
      rw [CardQuery.squeezeEach_regionTrees, hspells.items_eq, hsolid, hshape.joined_yield]
      rfl

theorem Reads.shape {ts : List Token} {t : Tree} (h : Reads ts (some t)) :
    Shape (.row .or) t := by
  obtain ⟨is, -, hshape, -⟩ := h
  exact hshape

theorem Reads.spells {ts : List Token} {t : Option Tree} (h : Reads ts t) :
    Spells ts (items ts) := by
  cases t with
  | none =>
      obtain ⟨is, hspells, -⟩ := h
      rwa [hspells.items_eq]
  | some t =>
      obtain ⟨is, hspells, -, -⟩ := h
      rwa [hspells.items_eq]

theorem reads_of_faultless {ts : List Token} (h : Tree.faultlessEach (regionTrees ts) = true) :
    ∃ t, Reads ts t := by
  have hspells := spells_of_faultless (termsFaultless_of_finish h)
  have hsound : ∀ i ∈ solid (items ts), i.Sound := by
    intro i hi
    obtain ⟨hmem, hblank⟩ := List.mem_filter.1 hi
    refine ⟨by simpa using hblank, proper_items ts i hmem, ?_⟩
    rintro tree rfl
    obtain ⟨w, e, -, hw⟩ := hspells.exists_part_of_mem hmem
    exact ⟨w, e, hw⟩
  rw [← Tree.faultlessEach_squeezeEach, squeezeEach_regionTrees] at h
  rcases joined_shape hsound h with ⟨hnil, -⟩ | ⟨t, -, ht, hyield⟩
  · exact ⟨none, items ts, hspells, hnil⟩
  · exact ⟨some t, items ts, hspells, ht, hyield.symm⟩

/-- **The regions without errors are the spelled rows whose solid items are an expression.** -/
theorem faultlessEach_regionTrees_iff {ts : List Token} :
    Tree.faultlessEach (regionTrees ts) = true ↔ ∃ t, Reads ts t := by
  constructor
  · exact reads_of_faultless
  · rintro ⟨t, h⟩
    rw [← Tree.faultlessEach_squeezeEach, h.squeezeEach_regionTrees]
    cases t with
    | none => rfl
    | some t => simp [h.shape.faultless]

theorem Shape.isExpression {lvl : Level} {t : Tree} (h : Shape lvl t) : t.isExpression = true := by
  induction h with
  | simple h =>
      obtain ⟨k, cs, rfl, hk⟩ := h.exists_node
      cases k <;> simp_all [Tree.isExpression, NodeKind.isTerm, NodeKind.isExpression]
  | ofTerm h ih => exact ih
  | ofAnd h ih => exact ih
  | _ => rfl

/-- What a region without errors asks is what its expression asks. -/
theorem Reads.meaning {ts : List Token} {t : Option Tree} (h : Reads ts t) :
    meaning ts = t.bind Tree.lower := by
  rw [CardQuery.meaning, ← Tree.lowerEach_squeezeEach, h.squeezeEach_regionTrees]
  cases t with
  | none => rfl
  | some t =>
      have ht := h.shape.isExpression
      cases hlower : t.lower <;> simp [Tree.lowerEach, ht, hlower, Expr.all?, Expr.chain]

/-! ## Blanks at the start of a region -/

theorem items_blank {t : Token} (h : t.isBlank = true) (ts : List Token) :
    items (t :: ts) = .blank t :: items ts :=
  items_mark (Item.ofMark?_blank (by simpa [Token.isBlank] using h)) ts

theorem solid_items_dropWhile (ts : List Token) :
    solid (items (ts.dropWhile Token.isBlank)) = solid (items ts) := by
  induction ts with
  | nil => rfl
  | cons t ts ih =>
      cases ht : t.isBlank with
      | true => rw [List.dropWhile_cons_of_pos ht, ih, items_blank ht, solid_cons_blank]
      | false => rw [List.dropWhile_cons_of_neg (by simp [ht])]

theorem squeezeEach_regionTrees_dropWhile (ts : List Token) :
    Tree.squeezeEach (regionTrees (ts.dropWhile Token.isBlank))
      = Tree.squeezeEach (regionTrees ts) := by
  rw [squeezeEach_regionTrees, squeezeEach_regionTrees, solid_items_dropWhile]

theorem faultlessEach_regionTrees_dropWhile (ts : List Token) :
    Tree.faultlessEach (regionTrees (ts.dropWhile Token.isBlank))
      = Tree.faultlessEach (regionTrees ts) := by
  calc Tree.faultlessEach (regionTrees (ts.dropWhile Token.isBlank))
      = Tree.faultlessEach (Tree.squeezeEach (regionTrees (ts.dropWhile Token.isBlank))) :=
        (Tree.faultlessEach_squeezeEach _).symm
    _ = Tree.faultlessEach (Tree.squeezeEach (regionTrees ts)) := by
        rw [squeezeEach_regionTrees_dropWhile]
    _ = Tree.faultlessEach (regionTrees ts) := Tree.faultlessEach_squeezeEach _

theorem meaning_dropWhile (ts : List Token) :
    meaning (ts.dropWhile Token.isBlank) = meaning ts := by
  rw [meaning, ← Tree.lowerEach_squeezeEach, squeezeEach_regionTrees_dropWhile,
    Tree.lowerEach_squeezeEach, meaning]

end CardQuery
