import CardQuery.Proofs.Parse.Lossless
import CardQuery.Query.Document
import Mathlib.Data.List.TakeWhile

/-!
# Trimmed rows of tokens

The segment of a region is the row of its tokens without the blanks at both ends. The tokens of a
region's tree differ from those of the text in one way only, a keyword in a value is a word there,
and neither the text of a token nor whether it is blank depends on that.

Main statement: a segment has the text and the place of its row, and holds every token of it that
is not blank (`Segment.trims_ofRegion`, `Segment.Trims.holds`).
-/

set_option autoImplicit false

namespace CardQuery

/-! ## Slices -/

/-- The part of a text between two bytes, or nothing when one of them is inside a character or the
second comes before the first. -/
def Text.slice? (t : Text) (start stop : Nat) : Option Text :=
  if start ≤ stop then
    (t.splitAtWidth? start).bind fun (_, rest) => rest.takeWidth? (stop - start)
  else none

theorem Text.slice?_append (before part after : Text) :
    Text.slice? (before ++ (part ++ after)) before.width (before.width + part.width)
      = some part := by
  rw [slice?, if_pos (by omega), splitAtWidth?_append, Option.bind_some, Nat.add_sub_cancel_left]
  simp [Text.takeWidth?, splitAtWidth?_append]

/-- The tokens of a row are where they were put. -/
theorem slice?_tokensText (before part after : List Token) {start stop : Nat}
    (hstart : start = tokensWidth before) (hstop : stop = start + tokensWidth part) :
    Text.slice? (tokensText (before ++ (part ++ after))) start stop = some (tokensText part) := by
  rw [hstop, hstart, tokensText_append, tokensText_append, ← width_tokensText, ← width_tokensText]
  exact Text.slice?_append _ _ _

/-! ## What a token looks like -/

/-- What decides how a token is laid out: its text, and whether it is blank. -/
def Token.look (t : Token) : Text × Bool :=
  (t.text, t.isBlank)

theorem Kept.map_look {after : Bool} {xs : List (Place × Token)} {ts : List Token}
    (h : Kept after xs ts) : (xs.map Prod.snd).map Token.look = ts.map Token.look := by
  induction xs generalizing after ts with
  | nil =>
      cases ts with
      | nil => rfl
      | cons t ts => exact h.elim
  | cons x xs ih =>
      cases ts with
      | nil => exact h.elim
      | cons t ts =>
          have hlook : x.2.look = t.look := by
            have hx := h.1
            unfold KeptToken at hx
            split at hx
            · next hword =>
                have hblank : t.isBlank = false := by
                  cases hk : t.kind <;> simp_all [TokenKind.isKeyword, Token.isBlank]
                rw [hx, Token.look, Token.look, hblank]
                rfl
            · rw [hx]
          rw [List.map_cons, List.map_cons, List.map_cons, hlook, ih h.2]

/-- The tokens in the trees of a region look like those of the text. -/
theorem map_look_regionTrees (ts : List Token) :
    (Tree.tokensOf (regionTrees ts)).map Token.look = ts.map Token.look := by
  rw [← Tree.map_snd_placedOf []]
  exact (kept_regionTrees ts).map_look

section Look

variable {xs ts : List Token} (h : xs.map Token.look = ts.map Token.look)
include h

theorem tokensText_of_look : tokensText xs = tokensText ts := by
  have hall : ∀ ys : List Token, tokensText ys = (ys.map Token.look).flatMap Prod.fst := by
    intro ys
    rw [List.flatMap_map]
    rfl
  rw [hall, hall, h]

theorem tokensWidth_of_look : tokensWidth xs = tokensWidth ts := by
  rw [← width_tokensText, ← width_tokensText, tokensText_of_look h]

theorem takeWhile_of_look :
    (xs.takeWhile Token.isBlank).map Token.look = (ts.takeWhile Token.isBlank).map Token.look := by
  have hall : ∀ ys : List Token, (ys.takeWhile Token.isBlank).map Token.look
      = (ys.map Token.look).takeWhile Prod.snd := fun ys => by
    rw [List.takeWhile_map]
    rfl
  rw [hall, hall, h]

theorem dropWhile_of_look :
    (xs.dropWhile Token.isBlank).map Token.look = (ts.dropWhile Token.isBlank).map Token.look := by
  have hall : ∀ ys : List Token, (ys.dropWhile Token.isBlank).map Token.look
      = (ys.map Token.look).dropWhile Prod.snd := fun ys => by
    rw [List.dropWhile_map]
    rfl
  rw [hall, hall, h]

theorem reverse_of_look : xs.reverse.map Token.look = ts.reverse.map Token.look := by
  rw [List.map_reverse, List.map_reverse, h]

theorem trimTokens_of_look : (trimTokens xs).map Token.look = (trimTokens ts).map Token.look :=
  reverse_of_look (dropWhile_of_look (reverse_of_look (dropWhile_of_look h)))

end Look

/-! ## Trimming -/

/-- The blanks before what is left of a row when it is trimmed; none when nothing is left. -/
def leadTokens (ts : List Token) : List Token :=
  if trimTokens ts = [] then [] else ts.takeWhile Token.isBlank

theorem leadTokens_of_look {xs ts : List Token} (h : xs.map Token.look = ts.map Token.look) :
    (leadTokens xs).map Token.look = (leadTokens ts).map Token.look := by
  have hnil : trimTokens xs = [] ↔ trimTokens ts = [] := by
    rw [← List.map_eq_nil_iff (f := Token.look), trimTokens_of_look h, List.map_eq_nil_iff]
  unfold leadTokens
  split
  · next hxs => rw [if_pos (hnil.1 hxs)]
  · next hxs => rw [if_neg (mt hnil.2 hxs), takeWhile_of_look h]

theorem head?_dropWhile_isBlank (ts : List Token) :
    ∀ t ∈ (ts.dropWhile Token.isBlank).head?, t.isBlank = false := by
  intro t ht
  have hnot := List.head?_dropWhile_not Token.isBlank ts
  rw [ht] at hnot
  simpa using hnot

/-- What is left of a row begins and ends with no blank. -/
theorem trimTokens_ends (ts : List Token) :
    (∀ t ∈ (trimTokens ts).head?, t.isBlank = false) ∧
      ∀ t ∈ (trimTokens ts).getLast?, t.isBlank = false := by
  constructor
  · intro t ht
    rw [trimTokens, List.head?_reverse] at ht
    -- the last token that is left of the reversed row is the first of the row
    obtain ⟨blanks, hblanks⟩ :=
      List.dropWhile_suffix (l := (ts.dropWhile Token.isBlank).reverse) Token.isBlank
    have hlast := congrArg List.getLast? hblanks
    rw [List.getLast?_append, Option.mem_def.1 ht, List.getLast?_reverse] at hlast
    exact head?_dropWhile_isBlank ts t hlast.symm
  · intro t ht
    rw [trimTokens, List.getLast?_reverse] at ht
    exact head?_dropWhile_isBlank _ t ht

/-- A row is what is left of it when it is trimmed, with blanks before and behind. -/
theorem exists_trail (ts : List Token) : ∃ trail, ts = leadTokens ts ++ (trimTokens ts ++ trail) ∧
    (∀ t ∈ leadTokens ts, t.isBlank = true) ∧ ∀ t ∈ trail, t.isBlank = true := by
  have hdrop : ts.dropWhile Token.isBlank = trimTokens ts
      ++ ((ts.dropWhile Token.isBlank).reverse.takeWhile Token.isBlank).reverse := by
    rw [trimTokens, ← List.reverse_append, List.takeWhile_append_dropWhile, List.reverse_reverse]
  have hbehind : ∀ t ∈ ((ts.dropWhile Token.isBlank).reverse.takeWhile Token.isBlank).reverse,
      t.isBlank = true :=
    fun t ht => List.mem_takeWhile_imp (List.mem_reverse.1 ht)
  unfold leadTokens
  split
  · next hnil =>
      refine ⟨ts, by rw [hnil]; rfl, by simp, fun t ht => ?_⟩
      rw [hnil, List.nil_append] at hdrop
      rw [← List.takeWhile_append_dropWhile (p := Token.isBlank) (l := ts)] at ht
      rcases List.mem_append.1 ht with ht | ht
      · exact List.mem_takeWhile_imp ht
      · exact hbehind t (hdrop ▸ ht)
  · exact ⟨_, by rw [← hdrop, List.takeWhile_append_dropWhile],
      fun t ht => List.mem_takeWhile_imp ht, hbehind⟩

theorem mem_of_mem_trimTokens {ts : List Token} {t : Token} (h : t ∈ trimTokens ts) : t ∈ ts := by
  obtain ⟨trail, hrow, -, -⟩ := exists_trail ts
  rw [hrow]
  simp [h]

theorem trimTokens_eq_nil_iff {ts : List Token} :
    trimTokens ts = [] ↔ ∀ t ∈ ts, t.isBlank = true := by
  constructor
  · intro hnil
    obtain ⟨trail, hrow, hlead, htrail⟩ := exists_trail ts
    rw [hrow, hnil, List.nil_append, List.forall_mem_append]
    exact ⟨hlead, htrail⟩
  · intro hblank
    by_contra hne
    obtain ⟨t, rest, htrim⟩ := List.exists_cons_of_ne_nil hne
    have ht : t ∈ trimTokens ts := by rw [htrim]; exact List.mem_cons_self
    have hfirst := (trimTokens_ends ts).1 t (by rw [htrim]; rfl)
    rw [hblank t (mem_of_mem_trimTokens ht)] at hfirst
    cases hfirst

/-! ## Segments -/

/-- A placed token is one of the row, and stands inside it. -/
theorem placeTokens_bounds {start : Nat} {ts : List Token} {p : PlacedToken}
    (h : p ∈ placeTokens start ts) :
    p.token ∈ ts ∧ start ≤ p.start ∧ p.span.stop ≤ start + tokensWidth ts := by
  induction ts generalizing start with
  | nil => cases h
  | cons t ts ih =>
      rw [tokensWidth]
      rcases List.mem_cons.1 h with rfl | h
      · exact ⟨List.mem_cons_self, Nat.le_refl _, by simp only [PlacedToken.span]; omega⟩
      · obtain ⟨hmem, hstart, hstop⟩ := ih h
        exact ⟨List.mem_cons_of_mem t hmem, by omega, by omega⟩

theorem exists_of_mem_placeTokens {start : Nat} {ts : List Token} {p : PlacedToken}
    (h : p ∈ placeTokens start ts) :
    ∃ before after, ts = before ++ ([p.token] ++ after) ∧ p.start = start + tokensWidth before := by
  induction ts generalizing start with
  | nil => cases h
  | cons t ts ih =>
      rcases List.mem_cons.1 h with rfl | h
      · exact ⟨[], ts, rfl, rfl⟩
      · obtain ⟨before, after, rfl, hstart⟩ := ih h
        refine ⟨t :: before, after, rfl, ?_⟩
        rw [hstart, tokensWidth]
        omega

theorem filter_placeTokens_eq_nil {ts : List Token} (h : ∀ t ∈ ts, t.isBlank = true)
    (start : Nat) : (placeTokens start ts).filter (fun p => !p.token.isBlank) = [] := by
  induction ts generalizing start with
  | nil => rfl
  | cons t ts ih =>
      rw [List.forall_mem_cons] at h
      rw [placeTokens, List.filter_cons_of_neg (by simp [h.1]), ih h.2]

/-- The range of what is not blank in a row that begins and ends with no blank is the whole row. -/
theorem ends_filter_placeTokens {ts : List Token} (hne : ts ≠ [])
    (hfirst : ∀ t ∈ ts.head?, t.isBlank = false) (hlast : ∀ t ∈ ts.getLast?, t.isBlank = false)
    (start : Nat) :
    (∃ p, ((placeTokens start ts).filter fun p => !p.token.isBlank).head? = some p ∧
      p.start = start) ∧
    ∃ p, ((placeTokens start ts).filter fun p => !p.token.isBlank).getLast? = some p ∧
      p.span.stop = start + tokensWidth ts := by
  constructor
  · obtain ⟨t, rest, rfl⟩ := List.exists_cons_of_ne_nil hne
    have ht : t.isBlank = false := hfirst t rfl
    exact ⟨⟨t, start⟩, by rw [placeTokens, List.filter_cons_of_pos (by simp [ht])]; rfl, rfl⟩
  · obtain ⟨init, t, rfl⟩ := List.eq_nil_or_concat' ts |>.resolve_left hne
    have ht : t.isBlank = false := hlast t (by simp)
    refine ⟨⟨t, start + tokensWidth init⟩, ?_, ?_⟩
    · simp [placeTokens_append, placeTokens, ht]
    · simp [PlacedToken.span, tokensWidth_append, tokensWidth, Nat.add_assoc]

/-- The trimmed range of a tree is that of its trimmed tokens. -/
theorem Focus.trimmedSpan_eq (f : Focus) :
    f.trimmedSpan = ⟨f.start + tokensWidth (leadTokens f.tree.tokens),
      f.start + tokensWidth (leadTokens f.tree.tokens)
        + tokensWidth (trimTokens f.tree.tokens)⟩ := by
  obtain ⟨trail, hrow, hlead, htrail⟩ := exists_trail f.tree.tokens
  have hfilter : (placeTokens f.start f.tree.tokens).filter (fun p => !p.token.isBlank)
      = (placeTokens (f.start + tokensWidth (leadTokens f.tree.tokens))
          (trimTokens f.tree.tokens)).filter fun p => !p.token.isBlank := by
    conv_lhs => rw [hrow]
    rw [placeTokens_append, placeTokens_append, List.filter_append, List.filter_append,
      filter_placeTokens_eq_nil hlead, filter_placeTokens_eq_nil htrail, List.nil_append,
      List.append_nil]
  unfold trimmedSpan
  rw [hfilter]
  by_cases hnil : trimTokens f.tree.tokens = []
  · simp [hnil, leadTokens, placeTokens, tokensWidth]
  · obtain ⟨hfirst, hlast⟩ := trimTokens_ends f.tree.tokens
    obtain ⟨⟨p, hp, hstart⟩, q, hq, hstop⟩ := ends_filter_placeTokens hnil hfirst hlast
      (f.start + tokensWidth (leadTokens f.tree.tokens))
    simp only [hp, hq, hstart, hstop]

/-- The text of a tree without the blanks at its ends. -/
def Tree.trimmedText (t : Tree) : Text :=
  tokensText (trimTokens t.tokens)

/-- Whether a segment is what is left, when it is trimmed, of a row of tokens that begins at
`start`. -/
structure Segment.Trims (s : Segment) (start : Nat) (ts : List Token) : Prop where
  text_eq : s.text = tokensText (trimTokens ts)
  start_eq : s.start = start + tokensWidth (leadTokens ts)
  stop_eq : s.stop = s.start + tokensWidth (trimTokens ts)

/-- **The segment of a region trims the tokens that the region was read from.** -/
theorem Segment.trims_ofRegion (k : NodeKind) (ts : List Token) (start : Nat)
    (above : List Step) : (ofRegion ⟨.node k (regionTrees ts), start, above⟩).Trims start ts := by
  have hlook : (Tree.node k (regionTrees ts)).tokens.map Token.look = ts.map Token.look := by
    rw [Tree.tokens_node, map_look_regionTrees]
  have hspan := Focus.trimmedSpan_eq ⟨.node k (regionTrees ts), start, above⟩
  rw [tokensWidth_of_look (leadTokens_of_look hlook),
    tokensWidth_of_look (trimTokens_of_look hlook)] at hspan
  exact ⟨tokensText_of_look (trimTokens_of_look hlook), congrArg Span.start hspan, by
    simp only [ofRegion, hspan]⟩

namespace Segment.Trims

variable {s : Segment} {start : Nat} {ts : List Token} (h : s.Trims start ts)
include h

/-- The segment stands inside the row. -/
theorem bounds : start ≤ s.start ∧ s.start ≤ s.stop ∧ s.stop ≤ start + tokensWidth ts := by
  obtain ⟨trail, hrow, -, -⟩ := exists_trail ts
  have hwidth := congrArg tokensWidth hrow
  rw [tokensWidth_append, tokensWidth_append] at hwidth
  have hstart := h.start_eq
  have hstop := h.stop_eq
  omega

/-- The text of the segment is that of its bytes. -/
theorem slice?_eq (before after : List Token) (hstart : start = tokensWidth before) :
    Text.slice? (tokensText (before ++ (ts ++ after))) s.start s.stop = some s.text := by
  obtain ⟨trail, hrow, -, -⟩ := exists_trail ts
  have hall : before ++ (ts ++ after)
      = (before ++ leadTokens ts) ++ (trimTokens ts ++ (trail ++ after)) := by
    conv_lhs => rw [hrow]
    simp
  rw [hall, h.text_eq]
  exact slice?_tokensText _ _ _ (by rw [h.start_eq, hstart, tokensWidth_append]) h.stop_eq

/-- The segments without a text are those of blank rows. -/
theorem text_eq_nil_iff (hts : ∀ t ∈ ts, t.IsLexeme) :
    s.text = [] ↔ ∀ t ∈ ts, t.isBlank = true := by
  rw [h.text_eq, ← trimTokens_eq_nil_iff]
  refine ⟨fun htext => ?_, fun hnil => by rw [hnil, tokensText_nil]⟩
  by_contra hne
  obtain ⟨t, rest, htrim⟩ := List.exists_cons_of_ne_nil hne
  have ht : t ∈ ts := mem_of_mem_trimTokens (by rw [htrim]; exact List.mem_cons_self)
  rw [htrim, tokensText_cons] at htext
  exact (hts t ht).text_ne_nil (List.append_eq_nil_iff.1 htext).1

/-- Every token of the row that is not blank stands inside the segment. -/
theorem holds {p : PlacedToken} (hp : p ∈ placeTokens start ts)
    (hblank : p.token.isBlank = false) : s.start ≤ p.start ∧ p.span.stop ≤ s.stop := by
  obtain ⟨trail, hrow, hlead, htrail⟩ := exists_trail ts
  rw [hrow, placeTokens_append, placeTokens_append, List.mem_append, List.mem_append] at hp
  rcases hp with hp | hp | hp
  · rw [hlead _ (placeTokens_bounds hp).1] at hblank
    cases hblank
  · have hbounds := (placeTokens_bounds hp).2
    rw [← h.start_eq] at hbounds
    rw [h.stop_eq]
    exact hbounds
  · rw [htrail _ (placeTokens_bounds hp).1] at hblank
    cases hblank

end Segment.Trims

/-- A region that does not begin with a blank has a text. -/
theorem trimmedText_ne_nil {ts : List Token} (hts : ∀ t ∈ ts, t.IsLexeme) (hne : ts ≠ [])
    (hfirst : ∀ t ∈ ts.head?, t.isBlank = false) (k : NodeKind) :
    (Tree.node k (regionTrees ts)).trimmedText ≠ [] := by
  obtain ⟨t, rest, rfl⟩ := List.exists_cons_of_ne_nil hne
  refine mt ((Segment.trims_ofRegion k (t :: rest) 0 []).text_eq_nil_iff hts).1 fun hblank => ?_
  have hsolid : t.isBlank = false := hfirst t rfl
  rw [hblank t List.mem_cons_self] at hsolid
  cases hsolid

end CardQuery
