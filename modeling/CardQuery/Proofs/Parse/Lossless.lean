import CardQuery.Proofs.Parse.Flatten
import CardQuery.Proofs.Parse.Lines
import CardQuery.Proofs.Tree.Leaf

/-!
# The tokens of a tree are those of its text

Every token of a text becomes a leaf of its tree, in order, whatever is wrong with the text. Only
one thing is changed: a keyword just after the comparison of a tag becomes a word in the value of
that tag. `Kept` compares the leaves with the tokens from left to right and remembers whether a
comparison was passed last.

Main statement: `leaves_parse`.
-/

set_option autoImplicit false

namespace CardQuery

/-! ## Leaves against tokens -/

/-- Whether a leaf holds a token of the text, when `after` tells whether the leaf before it is the
comparison of a tag. -/
def KeptToken (after : Bool) (x : Place × Token) (t : Token) : Prop :=
  if after = true ∧ t.kind.isKeyword = true then x = (.value, ⟨.word, t.text⟩) else x.2 = t

/-- Whether leaves hold tokens of the text, one by one. -/
def Kept : Bool → List (Place × Token) → List Token → Prop
  | _, [], [] => True
  | after, x :: xs, t :: ts => KeptToken after x t ∧ Kept (x.1 = .operator) xs ts
  | _, _, _ => False

/-- Whether the last of some leaves is the comparison of a tag. -/
def endsInOperator (after : Bool) : List (Place × Token) → Bool
  | [] => after
  | x :: xs => endsInOperator (x.1 = .operator) xs

theorem endsInOperator_append (after : Bool) (xs ys : List (Place × Token)) :
    endsInOperator after (xs ++ ys) = endsInOperator (endsInOperator after xs) ys := by
  induction xs generalizing after with
  | nil => rfl
  | cons x xs ih => exact ih _

theorem endsInOperator_map (after : Bool) {p : Place} (hp : p ≠ .operator) (ts : List Token) :
    endsInOperator after (ts.map fun t => (p, t)) = (after && ts.isEmpty) := by
  induction ts generalizing after with
  | nil => simp [endsInOperator]
  | cons t ts ih => simp [endsInOperator, ih, hp]

theorem endsInOperator_take_succ {after : Bool} {xs : List (Place × Token)} {i : Nat}
    {x : Place × Token} (h : xs[i]? = some x) :
    endsInOperator after (xs.take (i + 1)) = decide (x.1 = .operator) := by
  induction i generalizing after xs with
  | zero =>
      cases xs with
      | nil => cases h
      | cons y ys =>
          cases h
          simp [endsInOperator]
  | succ i ih =>
      cases xs with
      | nil => cases h
      | cons y ys => exact ih h

theorem KeptToken.of_not_keyword {after : Bool} {x : Place × Token} {t : Token}
    (ht : t.kind.isKeyword = false) (hx : x.2 = t) : KeptToken after x t := by
  simp [KeptToken, ht, hx]

namespace Kept

variable {after : Bool} {xs ys : List (Place × Token)} {ts us : List Token}

theorem append (h : Kept after xs ts) (h' : Kept (endsInOperator after xs) ys us) :
    Kept after (xs ++ ys) (ts ++ us) := by
  induction xs generalizing after ts with
  | nil =>
      cases ts with
      | nil => exact h'
      | cons t ts => exact h.elim
  | cons x xs ih =>
      cases ts with
      | nil => exact h.elim
      | cons t ts => exact ⟨h.1, ih h.2 h'⟩

/-- What stands before a token that is no keyword does not matter. -/
theorem of_not_keyword {t : Token} (h : Kept after xs (t :: ts)) (ht : t.kind.isKeyword = false)
    (after' : Bool) : Kept after' xs (t :: ts) := by
  cases xs with
  | nil => exact h.elim
  | cons x xs =>
      refine ⟨.of_not_keyword ht ?_, h.2⟩
      simpa [KeptToken, ht] using h.1

/-- Tokens that stand outside of tags are kept. -/
theorem map (ts : List Token) : Kept false (ts.map fun t => (.elsewhere, t)) ts := by
  induction ts with
  | nil => trivial
  | cons t ts ih => exact ⟨by simp [KeptToken], by simpa using ih⟩

/-- Leaves and tokens agree on all that is the same for a keyword and for the word in its place. -/
theorem map_eq {α : Type} {f : Token → α}
    (hf : ∀ t : Token, t.kind.isKeyword = true → f ⟨.word, t.text⟩ = f t) (h : Kept after xs ts) :
    xs.map (fun x => f x.2) = ts.map f := by
  induction xs generalizing after ts with
  | nil =>
      cases ts with
      | nil => rfl
      | cons t ts => exact h.elim
  | cons x xs ih =>
      cases ts with
      | nil => exact h.elim
      | cons t ts =>
          have hhead : f x.2 = f t := by
            have hx := h.1
            unfold KeptToken at hx
            split at hx
            · next hword => rw [hx, hf t hword.2]
            · rw [hx]
          rw [List.map_cons, List.map_cons, hhead, ih h.2]

/-- A leaf holds a token of the text as it is, or a keyword as a word. -/
theorem exists_of_mem (h : Kept after xs ts) {x : Place × Token} (hx : x ∈ xs) :
    ∃ t ∈ ts, x.2 = t ∨ t.kind.isKeyword = true ∧ x.2 = ⟨.word, t.text⟩ := by
  induction xs generalizing after ts with
  | nil => cases hx
  | cons y xs ih =>
      cases ts with
      | nil => exact h.elim
      | cons t ts =>
          rcases List.mem_cons.1 hx with rfl | hx
          · have hkept := h.1
            refine ⟨t, List.mem_cons_self, ?_⟩
            unfold KeptToken at hkept
            split at hkept
            · next hword => exact Or.inr ⟨hword.2, by rw [hkept]⟩
            · exact Or.inl hkept
          · obtain ⟨u, hu, hheld⟩ := ih h.2 hx
            exact ⟨u, List.mem_cons_of_mem t hu, hheld⟩

/-- Each leaf holds the token at its position, by what the leaf before it is. -/
theorem getElem? (h : Kept after xs ts) {i : Nat} {x : Place × Token} {t : Token}
    (hx : xs[i]? = some x) (ht : ts[i]? = some t) :
    KeptToken (endsInOperator after (xs.take i)) x t := by
  induction i generalizing after xs ts with
  | zero =>
      cases xs with
      | nil => cases hx
      | cons y ys =>
          cases ts with
          | nil => cases ht
          | cons u us =>
              cases hx
              cases ht
              exact h.1
  | succ i ih =>
      cases xs with
      | nil => cases hx
      | cons y ys =>
          cases ts with
          | nil => cases ht
          | cons u us => exact ih h.2 hx ht

end Kept

/-! ## Gathering -/

/-- The tokens of an item with their places. -/
def Item.placed (i : Item) : List (Place × Token) :=
  Tree.placedOf [] i.trees

namespace Draft

/-- The tokens of a minus sign, with their place. -/
def placedSign (sign : Option Token) : List (Place × Token) :=
  sign.toList.map fun m => (.elsewhere, m)

/-- The tokens gathered so far, with the places that they will have. -/
def placed : Draft → List (Place × Token)
  | .complete i => i.placed
  | .minus m => [(.elsewhere, m)]
  | .word sign w => placedSign sign ++ [(.elsewhere, w)]
  | .tag sign a op => placedSign sign ++ [(.elsewhere, a), (.operator, op)]
  | .value sign a op words =>
    placedSign sign ++ (.elsewhere, a) :: (.operator, op) :: words.map fun t => (.value, t)
  | .stray ts => ts.map fun t => (.elsewhere, t)

theorem placed_tagOf (sign : Option Token) (parts : List Tree) :
    (tagOf sign parts).placed = placedSign sign ++ Tree.placedOf [.tag] parts := by
  cases sign <;>
    simp [tagOf, Item.placed, Item.trees, placedSign, Tree.leaf, Place.ofKinds]

theorem placed_finish (d : Draft) (next : Option TokenKind) :
    (d.finish next).placed = d.placed := by
  cases d with
  | complete i => rfl
  | minus m =>
      simp only [finish]
      split
      · simp [Item.placed, Item.trees, placed, Tree.leaf, Place.ofKinds]
      · simp [placed_tagOf, placedSign, placed]
  | word sign w =>
      cases sign with
      | none => simp [finish, Item.placed, Item.trees, placed, placedSign, Tree.leaf, Place.ofKinds]
      | some m => simp [finish, placed_tagOf, placed, Tree.leaf, Place.ofKinds]
  | tag sign a op => simp [finish, placed_tagOf, placed, Tree.leaf, Place.ofKinds]
  | value sign a op words =>
      simp [finish, placed_tagOf, placed, Tree.leaf, Tree.flat, Place.ofKinds]
  | stray ts => simp [finish, Item.placed, Item.trees, placed, Tree.flat, Place.ofKinds]

/-- What a draft keeps of the tokens it was gathered from. It ends in a comparison only while the
value of a tag is waited for. -/
structure Keeps (w : List Token) (d : Draft) : Prop where
  kept : Kept false d.placed w
  waits : endsInOperator false d.placed = true → ∃ sign a op, d = .tag sign a op

/-- A single token is kept, and is no comparison of a tag. -/
theorem keeps_of_placed_eq {d : Draft} {t : Token} (h : d.placed = [(.elsewhere, t)]) :
    d.Keeps [t] := by
  refine ⟨?_, fun hend => ?_⟩
  · rw [h]
    exact Kept.map [t]
  · rw [h] at hend
    cases hend

theorem keeps_start (t : Token) : (start t).Keeps [t] := by
  apply keeps_of_placed_eq
  unfold start
  split <;>
    simp [placed, placedSign, Item.placed, Item.trees, Tree.leaf, Place.ofKinds]

/-- A further token is kept at its place, when it is no keyword. -/
theorem Keeps.extend_placed {d d' : Draft} {w : List Token} {t : Token} {p : Place}
    (h : d.Keeps w) (hplaced : d'.placed = d.placed ++ [(p, t)]) (ht : t.kind.isKeyword = false)
    (hp : p = .operator → ∃ sign a op, d' = .tag sign a op) : d'.Keeps (w ++ [t]) := by
  refine ⟨?_, fun hend => ?_⟩
  · rw [hplaced]
    exact h.kept.append ⟨.of_not_keyword ht rfl, trivial⟩
  · rw [hplaced, endsInOperator_append] at hend
    exact hp (by simpa [endsInOperator] using hend)

theorem keeps_extend {d d' : Draft} {w : List Token} {t : Token} (h : d.Keeps w)
    (ht : d.extend t = some d') : d'.Keeps (w ++ [t]) := by
  cases d with
  | complete i => cases ht
  | minus m =>
      simp only [extend] at ht
      split at ht <;> cases ht
      · next hk => exact h.extend_placed rfl (by rw [hk]; rfl) (by simp)
      · next k hk =>
          refine h.extend_placed (p := .elsewhere) ?_ (by rw [hk]; rfl) (by simp)
          simp [placed, placed_tagOf, placedSign, Tree.leaf, Place.ofKinds]
  | word sign a =>
      simp only [extend] at ht
      split at ht <;> cases ht
      next c hk =>
        refine h.extend_placed (p := .operator) ?_ (by rw [hk]; rfl) fun _ => ⟨_, _, _, rfl⟩
        simp [placed]
  | tag sign a op =>
      simp only [extend] at ht
      split at ht <;> cases ht
      · next k hk =>
          refine h.extend_placed (p := .elsewhere) ?_ (by rw [hk]; rfl) (by simp)
          simp [placed, placed_tagOf, Tree.leaf, Place.ofKinds]
      · next c hk =>
          -- the keyword stands right after the comparison, and so becomes a word
          have hplaced : placed (.complete (tagOf sign [.leaf .argument a, .leaf .operator op,
              .leaf .value ⟨.word, t.text⟩]))
                = placed (.tag sign a op) ++ [(.value, ⟨.word, t.text⟩)] := by
            simp [placed, placed_tagOf, Tree.leaf, Place.ofKinds]
          have hafter : endsInOperator false (placed (.tag sign a op)) = true := by
            simp [placed, endsInOperator_append, endsInOperator]
          refine ⟨?_, fun hend => ?_⟩
          · rw [hplaced]
            refine h.kept.append ⟨?_, trivial⟩
            simp [KeptToken, hafter, hk, TokenKind.isKeyword]
          · rw [hplaced, endsInOperator_append] at hend
            cases hend
      · next hk =>
          exact h.extend_placed (p := .value) (by simp [placed]) (by rw [hk]; rfl) (by simp)
      · next hk =>
          exact h.extend_placed (p := .value) (by simp [placed]) (by rw [hk]; rfl) (by simp)
  | value sign a op words =>
      simp only [extend] at ht
      split at ht <;> cases ht
      all_goals
        next hk =>
          exact h.extend_placed (p := .value) (by simp [placed]) (by rw [hk]; rfl) (by simp)
  | stray ts =>
      simp only [extend] at ht
      split at ht <;> cases ht
      all_goals
        next hk =>
          exact h.extend_placed (p := .elsewhere) (by simp [placed]) (by rw [hk]; rfl) (by simp)

/-- A tag that waits for its value goes on with any keyword. -/
theorem Keeps.not_keyword {d : Draft} {w : List Token} {t : Token} (h : d.Keeps w)
    (hend : endsInOperator false d.placed = true) (ht : d.extend t = none) :
    t.kind.isKeyword = false := by
  obtain ⟨sign, a, op, rfl⟩ := h.waits hend
  simp only [extend] at ht
  split at ht <;> try cases ht
  cases hk : t.kind <;> simp_all [TokenKind.isKeyword]

theorem kept_run {d : Draft} {w : List Token} (h : d.Keeps w) (ts : List Token) :
    Kept false ((d.run ts).flatMap Item.placed) (w ++ ts) := by
  induction ts generalizing d w with
  | nil => simpa [run, placed_finish] using h.kept
  | cons t ts ih =>
      rw [run]
      cases ht : d.extend t with
      | some d' => simpa using ih (keeps_extend h ht)
      | none =>
          have hrest : Kept false (((start t).run ts).flatMap Item.placed) (t :: ts) :=
            ih (keeps_start t)
          rw [List.flatMap_cons, placed_finish]
          refine h.kept.append ?_
          cases hend : endsInOperator false d.placed with
          | false => exact hrest
          | true => exact hrest.of_not_keyword (h.not_keyword hend ht) true

end Draft

theorem kept_items (ts : List Token) : Kept false ((items ts).flatMap Item.placed) ts := by
  cases ts with
  | nil => trivial
  | cons t ts => exact Draft.kept_run (Draft.keeps_start t) ts

/-! ## Joining -/

theorem flattens_placedOf : Flattens (Tree.placedOf []) where
  append := Tree.placedOf_append []
  binary op cs := by simp [Tree.placedOf_of_isOutside (k := .binary op) rfl]
  clause cs := by simp [Tree.placedOf_of_isOutside (k := .clause) rfl]
  error t := by simp [Tree.leaf, Place.ofKinds]

theorem kept_regionTrees (ts : List Token) : Kept false (Tree.placedOf [] (regionTrees ts)) ts := by
  rw [flattens_placedOf.regionTrees]
  exact kept_items ts

/-! ## The whole text -/

/-- Blanks in front of a region are kept with it. -/
theorem kept_blanks_regionTrees (ts : List Token) :
    Kept false ((ts.takeWhile Token.isBlank).map (fun t => (.elsewhere, t))
      ++ Tree.placedOf [] (regionTrees (ts.dropWhile Token.isBlank))) ts := by
  have hregion : Kept (endsInOperator false
      ((ts.takeWhile Token.isBlank).map fun t => (Place.elsewhere, t)))
      (Tree.placedOf [] (regionTrees (ts.dropWhile Token.isBlank)))
      (ts.dropWhile Token.isBlank) := by
    rw [endsInOperator_map false (by simp)]
    exact kept_regionTrees _
  have hall := (Kept.map (ts.takeWhile Token.isBlank)).append hregion
  rwa [List.takeWhile_append_dropWhile] at hall

theorem kept_domainTrees (ts : List Token) : Kept false (Tree.placedOf [] (domainTrees ts)) ts := by
  have hall := kept_blanks_regionTrees ts
  unfold domainTrees
  split
  · next hsolid =>
      rw [hsolid] at hall
      simpa [Place.ofKinds, regionTrees_nil] using hall
  · simpa [Place.ofKinds, Tree.placedOf_of_isOutside (k := .domain) rfl] using hall

/-- What stands before a section does not matter, since its name is no keyword. -/
theorem Section.kept_tree {s : Section} (hname : s.name.kind = .word) (after : Bool) :
    Kept after (s.tree.placed []) s.tokens := by
  have hbody := kept_blanks_regionTrees s.body
  have hplaced : s.tree.placed [] = (.elsewhere, s.name) :: (.elsewhere, s.colon)
      :: ((s.body.takeWhile Token.isBlank).map (fun t => (.elsewhere, t))
        ++ Tree.placedOf [] (regionTrees (s.body.dropWhile Token.isBlank))) := by
    simp [Section.tree, Tree.leaf, Place.ofKinds, Tree.placedOf_of_isOutside (k := .queryBody) rfl]
  have hall : Kept false (s.tree.placed []) s.tokens := by
    rw [hplaced]
    exact ⟨by simp [KeptToken], by simp [KeptToken], hbody⟩
  exact hall.of_not_keyword (by rw [hname]; rfl) after

theorem kept_sections {sections : List Section} (h : ∀ s ∈ sections, s.name.kind = .word)
    (after : Bool) : Kept after (Tree.placedOf [] (sections.map Section.tree))
      (sections.flatMap Section.tokens) := by
  induction sections generalizing after with
  | nil => simp [Kept]
  | cons s sections ih =>
      rw [List.map_cons, Tree.placedOf_cons, List.flatMap_cons]
      exact (Section.kept_tree (h s (by simp)) after).append
        (ih (fun x hx => h x (by simp [hx])) _)

theorem kept_parseTokens (ts : List Token) : Kept false ((parseTokens ts).placed []) ts := by
  have hcut : (cutAtHeaders ts).1 ++ (cutAtHeaders ts).2.flatMap Section.tokens = ts :=
    cutFrom_tokens true true ts
  have hnames : ∀ s ∈ (cutAtHeaders ts).2, s.name.kind = .word :=
    fun s hs => (name_of_mem_cutFrom hs).2.1
  unfold parseTokens
  split
  · next run hrun =>
      rw [hrun] at hcut
      obtain rfl : run = ts := by simpa using hcut
      rw [Tree.placed_node, Tree.placedOf_of_isOutside rfl]
      exact kept_regionTrees run
  · next run sections hne hrun =>
      rw [hrun] at hcut hnames
      rw [Tree.placed_node, Tree.placedOf_of_isOutside rfl, Tree.placedOf_append]
      have hall := (kept_domainTrees run).append (kept_sections hnames _)
      rwa [hcut] at hall

/-- The tokens of a tree agree with those it was read from on all that is the same for a keyword
and for a word. -/
theorem map_tokens_parseTokens {α : Type} {f : Token → α}
    (hf : ∀ t : Token, t.kind.isKeyword = true → f ⟨.word, t.text⟩ = f t) (ts : List Token) :
    (parseTokens ts).tokens.map f = ts.map f := by
  rw [← Tree.map_snd_placed [], List.map_map]
  exact (kept_parseTokens ts).map_eq hf

/-- The texts of the leaves of a tree are those of the tokens it was read from. -/
theorem map_text_tokens_parseTokens (ts : List Token) :
    (parseTokens ts).tokens.map Token.text = ts.map Token.text :=
  map_tokens_parseTokens (fun _ _ => rfl) ts

/-- What is said of tokens by their places depends on their widths. -/
theorem placeTokens_map_eq {α : Type} {f : Token → α} {ts us : List Token}
    (h : ts.map (fun t => (f t, t.width)) = us.map fun t => (f t, t.width)) (start : Nat) :
    (placeTokens start ts).map (fun p => (f p.token, p.span))
      = (placeTokens start us).map fun p => (f p.token, p.span) := by
  induction ts generalizing us start with
  | nil =>
      obtain rfl : us = [] := by simpa using h.symm
      rfl
  | cons t ts ih =>
      cases us with
      | nil => cases h
      | cons u us =>
          obtain ⟨hhead, hrest⟩ := List.cons.inj h
          obtain ⟨hf, hwidth⟩ := Prod.mk.inj hhead
          rw [placeTokens, placeTokens, List.map_cons, List.map_cons, ih hrest, hwidth]
          simp [PlacedToken.span, hf, hwidth]

/-- The tokens of the tree of a text stand where those of the text do, and agree with them on all
that is the same for a keyword and for the word in its place. -/
theorem map_placeTokens_parse {α : Type} {f : Token → α}
    (hf : ∀ t : Token, t.kind.isKeyword = true → f ⟨.word, t.text⟩ = f t) (t : Text) :
    (placeTokens 0 (parse t).tokens).map (fun p => (f p.token, p.span))
      = (placeTokens 0 (tokenize t)).map fun p => (f p.token, p.span) :=
  placeTokens_map_eq (map_tokens_parseTokens (f := fun t => (f t, t.width))
    (fun t ht => by rw [hf t ht]; rfl) (tokenize t)) 0

theorem map_span_parse (t : Text) :
    (placeTokens 0 (parse t).tokens).map PlacedToken.span
      = (placeTokens 0 (tokenize t)).map PlacedToken.span := by
  have hplaces := congrArg (List.map Prod.snd)
    (map_placeTokens_parse (f := Token.text) (fun _ _ => rfl) t)
  rwa [List.map_map, List.map_map] at hplaces

/-- So do its leaves. -/
theorem map_leaves_parse {α : Type} {f : TokenKind → α} (hf : ∀ op, f (.keyword op) = f .word)
    (t : Text) :
    (parse t).leaves.map (fun g => (g.tree.tokenKind?.map f, g.span))
      = (placeTokens 0 (tokenize t)).map fun p => (some (f p.token.kind), p.span) := by
  have hkeyword : ∀ x : Token, x.kind.isKeyword = true → some (f .word) = some (f x.kind) := by
    intro x hx
    cases hk : x.kind <;> simp_all [TokenKind.isKeyword]
  have hleaves := congrArg (List.map fun x : Tree × Nat =>
    (x.1.tokenKind?.map f, Span.mk x.2 (x.2 + x.1.width))) (Tree.leaves_eq_placeTokens (parse t))
  rw [List.map_map, List.map_map] at hleaves
  rw [← map_placeTokens_parse (f := fun x => some (f x.kind)) hkeyword]
  refine Eq.trans hleaves (List.map_congr_left fun p _ => ?_)
  simp [Tree.tokenKind?, PlacedToken.span, Tree.width]

/-- Each placed token starts where the one before it stops. -/
theorem isChain_placeTokens (start : Nat) (ts : List Token) :
    (placeTokens start ts).IsChain fun p q => p.span.stop = q.start := by
  induction ts generalizing start with
  | nil => exact .nil
  | cons t ts ih =>
    cases ts with
    | nil => exact .singleton _
    | cons u us => exact .cons_cons rfl (ih _)

/-- Whether the leaf at a position comes right after the comparison of a tag. -/
def FollowsOperator (leaves : List Focus) (i : Nat) : Prop :=
  ∃ j g, i = j + 1 ∧ leaves[j]? = some g ∧ g.place = .operator

theorem Tree.placed_of_getElem?_leaves {t : Tree} {i : Nat} {f : Focus}
    (h : t.leaves[i]? = some f) :
    ∃ token, (t.placed [])[i]? = some (f.place, token) ∧ f.tree = .token token := by
  have hall := congrArg (fun xs => xs[i]?) (Tree.leaves_eq_placed t)
  simp only [List.getElem?_map, h, Option.map_some] at hall
  obtain ⟨x, hx, heq⟩ := Option.map_eq_some_iff.mp hall.symm
  obtain ⟨hplace, htree⟩ := Prod.mk.inj heq
  exact ⟨x.2, by rw [hx, ← hplace], htree.symm⟩

theorem followsOperator_iff {t : Tree} {i : Nat} {f : Focus} (h : t.leaves[i]? = some f) :
    FollowsOperator t.leaves i ↔ endsInOperator false ((t.placed []).take i) = true := by
  cases i with
  | zero => simp [FollowsOperator, endsInOperator]
  | succ j =>
      have hj : j < t.leaves.length := by
        have := (List.getElem?_eq_some_iff.mp h).1
        omega
      obtain ⟨x, hx, -⟩ := Tree.placed_of_getElem?_leaves (List.getElem?_eq_getElem hj)
      rw [endsInOperator_take_succ hx]
      simp [FollowsOperator, hj]

/-- **The leaves of the tree of a text are the tokens of the text**, in order, each with its text
and its bytes. A leaf is the token itself, but for a keyword right after the comparison of a tag,
which is a word in the value. The tokens are not empty and cover the text without a gap. -/
theorem leaves_parse (t : Text) :
    (parse t).leaves.map (fun f => (f.tree.text, f.span))
        = (placeTokens 0 (tokenize t)).map (fun p => (p.token.text, p.span))
      ∧ (∀ i f x, (parse t).leaves[i]? = some f → (tokenize t)[i]? = some x →
          (FollowsOperator (parse t).leaves i ∧ x.kind.isKeyword = true →
            f.tree = .token ⟨.word, x.text⟩ ∧ f.place = .value)
          ∧ (¬ (FollowsOperator (parse t).leaves i ∧ x.kind.isKeyword = true) →
            f.tree = .token x))
      ∧ (∀ x ∈ tokenize t, x.text ≠ [])
      ∧ (∀ p ∈ (placeTokens 0 (tokenize t)).head?, p.start = 0)
      ∧ (placeTokens 0 (tokenize t)).IsChain (fun p q => p.span.stop = q.start)
      ∧ tokensText (tokenize t) = t := by
  refine ⟨?_, ?_, ?_, ?_, isChain_placeTokens 0 _, tokensText_tokenize t⟩
  · have hplaces := congrArg (List.map fun x => (x.1.text, Span.mk x.2 (x.2 + x.1.width)))
      (Tree.leaves_eq_placeTokens (parse t))
    rw [List.map_map, List.map_map] at hplaces
    refine Eq.trans hplaces (Eq.trans ?_
      (placeTokens_map_text (map_text_tokens_parseTokens (tokenize t)) 0))
    simp [Tree.text, Tree.width, PlacedToken.span, parse]
  · intro i f x hf hx
    obtain ⟨token, htoken, htree⟩ := Tree.placed_of_getElem?_leaves hf
    have hkept := (kept_parseTokens (tokenize t)).getElem? htoken hx
    have hafter := followsOperator_iff hf
    rw [hafter, htree]
    unfold KeptToken at hkept
    split at hkept
    · next hword =>
        obtain ⟨hplace, htoken⟩ := Prod.mk.inj hkept
        exact ⟨fun _ => ⟨by rw [htoken], hplace⟩, fun hno => absurd hword hno⟩
    · next hword =>
        exact ⟨fun hyes => absurd hyes hword, fun _ => congrArg Tree.token hkept⟩
  · intro x hx
    exact (isLexeme_of_mem_tokenize hx).text_ne_nil
  · intro p hp
    cases hts : tokenize t with
    | nil => simp [hts, placeTokens] at hp
    | cons u us =>
        simp only [hts, placeTokens, List.head?_cons, Option.mem_some_iff] at hp
        rw [← hp]

end CardQuery
