import CardQuery.Proofs.Parse.Phrase
import CardQuery.Proofs.Query.Prune
import CardQuery.Proofs.Token.Edge

/-!
# What is left between cuts

A row of items with some runs cut out falls into pieces. Each piece is spelled by tokens of the
text, so once it is trimmed it is a phrase, and the pieces are put together to a phrase again: with
a space between them, or directly after an opening and before a closing parenthesis.

Main statement: the text that is left is that of a phrase with the solid items that were kept
(`Cuts.exists_phrase`).
-/

set_option autoImplicit false

namespace CardQuery

/-! ## Rows with cuts -/

/-- Rows of items in which runs are replaced by a cut. -/
inductive Masked : List Item → List (Option Item) → Prop
  | nil : Masked [] []
  | keep {is : List Item} {m : List (Option Item)} (i : Item) (h : Masked is m) :
      Masked (i :: is) (some i :: m)
  | cut {is : List Item} {m : List (Option Item)} (js : List Item) (h : Masked is m) :
      Masked (js ++ is) (none :: m)

theorem Masked.append {is js : List Item} {m n : List (Option Item)} (h : Masked is m)
    (h' : Masked js n) : Masked (is ++ js) (m ++ n) := by
  induction h with
  | nil => exact h'
  | keep i h ih => exact .keep i ih
  | cut ks h ih =>
      rw [List.append_assoc]
      exact .cut ks ih

/-- The tokens of an item that is kept; a cut stays a cut. -/
def keptOf : Option Item → List (Option Token)
  | none => [none]
  | some i => i.tokens.map some

/-- Whether no term among these items is a setting. -/
def Plain (is : List Item) : Prop :=
  ∀ tree, .term tree ∈ is → tree.kind? = some .tag → tree.isSetting = false

theorem Plain.append {is js : List Item} (h : Plain is) (h' : Plain js) : Plain (is ++ js) := by
  intro tree htree
  rcases List.mem_append.1 htree with htree | htree
  · exact h tree htree
  · exact h' tree htree

theorem Plain.of_subset {is js : List Item} (h : Plain is) (hsub : js ⊆ is) : Plain js :=
  fun tree htree => h tree (hsub htree)

/-- Cutting settings out of the items `is` keeps these tokens, and the solid items `js`. -/
def Cuts (is : List Item) (kept : List (Option Token)) (js : List Item) : Prop :=
  ∃ m, Masked is m ∧ m.flatMap keptOf = kept ∧ solid (m.filterMap id) = js ∧
    Plain (m.filterMap id)

namespace Cuts

variable {is is' js js' : List Item} {kept kept' : List (Option Token)}

theorem nil : Cuts [] [] [] :=
  ⟨[], .nil, rfl, rfl, by simp [Plain]⟩

theorem append (h : Cuts is kept js) (h' : Cuts is' kept' js') :
    Cuts (is ++ is') (kept ++ kept') (js ++ js') := by
  obtain ⟨m, hm, rfl, rfl, hplain⟩ := h
  obtain ⟨n, hn, rfl, rfl, hplain'⟩ := h'
  refine ⟨m ++ n, hm.append hn, by simp, by simp, ?_⟩
  rw [List.filterMap_append]
  exact hplain.append hplain'

/-- Everything can be cut. -/
theorem cut (is : List Item) : Cuts is [none] [] :=
  ⟨[none], by simpa using Masked.cut is .nil, rfl, rfl, by simp [Plain]⟩

theorem keep {i : Item} (h : Plain [i]) : Cuts [i] (i.tokens.map some) (solid [i]) :=
  ⟨[some i], .keep i .nil, by simp [keptOf], rfl, h⟩

/-- A token that is an item is kept as it is. -/
theorem mark {t : Token} {i : Item} (hi : Item.ofMark? t = some i) :
    Cuts (Tree.token t).yield [some t] (solid [i]) := by
  have htokens : i.tokens = [t] := Item.tokens_of_ofMark? hi
  have hplain : Plain [i] := by
    intro tree htree
    obtain rfl : i = .term tree := (List.mem_singleton.1 htree).symm
    exact absurd hi (Item.ofMark?_ne_term t tree)
  have hkeep := keep hplain
  rw [htokens] at hkeep
  simpa [hi] using hkeep

end Cuts

/-! ## Several trees -/

/-- What is kept of each of several trees, when `f` gives the tokens. -/
inductive CutsEach (f : Tree → List (Option Token)) : List Tree → List Item → Prop
  | nil : CutsEach f [] []
  | cons {c : Tree} {cs : List Tree} {js ks : List Item} (h : Cuts c.yield (f c) js)
      (rest : CutsEach f cs ks) : CutsEach f (c :: cs) (js ++ ks)

namespace CutsEach

variable {f : Tree → List (Option Token)} {cs : List Tree} {js : List Item}

theorem cuts (h : CutsEach f cs js) : Cuts (Tree.yieldEach cs) (cs.flatMap f) js := by
  induction h with
  | nil => exact .nil
  | cons h rest ih =>
      rw [Tree.yieldEach_cons, List.flatMap_cons]
      exact h.append ih

theorem append {ds : List Tree} {ks : List Item} (h : CutsEach f cs js) (h' : CutsEach f ds ks) :
    CutsEach f (cs ++ ds) (js ++ ks) := by
  induction h with
  | nil => exact h'
  | cons hcut rest ih =>
      rw [List.append_assoc]
      exact .cons hcut ih

/-- Blanks between the trees are kept, and are no solid items. -/
theorem of_filter (hf : ∀ t : Token, t.isBlank = true → f (.token t) = [some t])
    (h : CutsEach f (cs.filter fun c => !c.isBlank) js) : CutsEach f cs js := by
  induction cs generalizing js with
  | nil => exact h
  | cons c cs ih =>
      cases hc : c.isBlank with
      | false =>
          rw [List.filter_cons_of_pos (by simp [hc])] at h
          cases h with
          | cons hcut rest => exact .cons hcut (ih rest)
      | true =>
          rw [List.filter_cons_of_neg (by simp [hc])] at h
          cases c with
          | node k ds => cases hc
          | token t =>
              have hk : t.kind = .blank := by simpa [Tree.isBlank, Token.isBlank] using hc
              have hmark := Cuts.mark (Item.ofMark?_blank hk)
              rw [← hf t hc] at hmark
              simpa using CutsEach.cons hmark (ih h)

end CutsEach

/-! ## The pieces -/

/-- The runs of items between the cuts. -/
def runsOf : List (Option Item) → List (List Item)
  | [] => [[]]
  | none :: rest => [] :: runsOf rest
  | some i :: rest =>
    match runsOf rest with
    | [] => [[i]]
    | run :: runs => (i :: run) :: runs

theorem exists_runsOf (m : List (Option Item)) : ∃ run runs, runsOf m = run :: runs := by
  cases m with
  | nil => exact ⟨[], [], rfl⟩
  | cons o rest =>
      cases o with
      | none => exact ⟨[], runsOf rest, rfl⟩
      | some i =>
          rw [runsOf]
          split <;> exact ⟨_, _, rfl⟩

theorem runsOf_some {m : List (Option Item)} {run : List Item} {runs : List (List Item)}
    (h : runsOf m = run :: runs) (i : Item) : runsOf (some i :: m) = (i :: run) :: runs := by
  rw [runsOf, h]

theorem flatten_runsOf (m : List (Option Item)) : (runsOf m).flatten = m.filterMap id := by
  induction m with
  | nil => rfl
  | cons o rest ih =>
      cases o with
      | none => simpa [runsOf] using ih
      | some i =>
          obtain ⟨run, runs, hruns⟩ := exists_runsOf rest
          rw [runsOf_some hruns]
          simpa [hruns] using ih

/-- Every run stands somewhere in the row, and the first at its start. -/
theorem Masked.runs {is : List Item} {m : List (Option Item)} (h : Masked is m)
    {run : List Item} {runs : List (List Item)} (hruns : runsOf m = run :: runs) :
    run <+: is ∧ ∀ r ∈ runs, r <:+: is := by
  induction h generalizing run runs with
  | nil =>
      cases hruns
      exact ⟨List.nil_prefix, by simp⟩
  | @keep is m i h ih =>
      obtain ⟨run', runs', hruns'⟩ := exists_runsOf m
      rw [runsOf_some hruns'] at hruns
      cases hruns
      obtain ⟨hfirst, hrest⟩ := ih hruns'
      refine ⟨List.cons_prefix_cons.2 ⟨rfl, hfirst⟩, fun r hr => ?_⟩
      exact (hrest r hr).trans (List.suffix_cons i is).isInfix
  | @cut is m js h ih =>
      -- the run before a cut is empty, and what was first behind it becomes a later one
      cases hruns
      refine ⟨List.nil_prefix, fun r hr => ?_⟩
      obtain ⟨run', runs', hruns'⟩ := exists_runsOf m
      obtain ⟨hfirst, hrest⟩ := ih hruns'
      have hr' : r <:+: is := by
        rw [hruns'] at hr
        rcases List.mem_cons.1 hr with rfl | hr
        · exact hfirst.isInfix
        · exact hrest r hr
      exact hr'.trans (List.suffix_append js is).isInfix

theorem piecesOf_append {rest : List (Option Token)} {piece : List Token}
    {pieces : List (List Token)} (h : piecesOf rest = piece :: pieces) (ts : List Token) :
    piecesOf (ts.map some ++ rest) = (ts ++ piece) :: pieces := by
  induction ts with
  | nil => exact h
  | cons t ts ih => rw [List.map_cons, List.cons_append, piecesOf, ih, List.cons_append]

/-- The pieces of the tokens are the tokens of the runs. -/
theorem piecesOf_keptOf (m : List (Option Item)) :
    piecesOf (m.flatMap keptOf) = (runsOf m).map fun run => run.flatMap Item.tokens := by
  induction m with
  | nil => rfl
  | cons o rest ih =>
      cases o with
      | none =>
          rw [List.flatMap_cons, keptOf, List.singleton_append, piecesOf, ih]
          rfl
      | some i =>
          obtain ⟨run, runs, hruns⟩ := exists_runsOf rest
          rw [hruns, List.map_cons] at ih
          rw [List.flatMap_cons, keptOf, piecesOf_append ih, runsOf_some hruns]
          rfl

/-! ## Trimming a piece -/

/-- Nothing, or a phrase. -/
def Remainder (ts : List Token) (is : List Item) : Prop :=
  (ts = [] ∧ is = []) ∨ Phrase ts is

theorem Phrase.remainder {ts : List Token} {is : List Item} (h : Phrase ts is) : Remainder ts is :=
  Or.inr h

theorem Remainder.lexed {ts : List Token} {is : List Item} (h : Remainder ts is) : Lexed ts := by
  rcases h with ⟨rfl, -⟩ | h
  · exact .nil
  · exact h.lexed

theorem Remainder.spells {ts : List Token} {is : List Item} (h : Remainder ts is) :
    Spells ts is := by
  rcases h with ⟨rfl, rfl⟩ | h
  · exact .nil
  · exact h.spells

/-- A spelled row that ends with a blank is spelled without it. -/
theorem Spells.of_concat_blank {ts : List Token} {b : Token} {is : List Item}
    (h : Spells (ts ++ [b]) is) (hb : b.kind = .blank) :
    ∃ js, is = js ++ [.blank b] ∧ Spells ts js := by
  generalize hrow : ts ++ [b] = row at h
  induction h generalizing ts with
  | nil => simp at hrow
  | @mark t i rest is hi hrest ih =>
      cases ts with
      | nil =>
          obtain ⟨rfl, rfl⟩ : b = t ∧ [] = rest := by simpa using hrow
          obtain rfl : [] = is := hrest.items_eq
          rw [Item.ofMark?_blank hb, Option.some.injEq] at hi
          exact ⟨[], by rw [← hi]; rfl, .nil⟩
      | cons x xs =>
          obtain ⟨rfl, hxs⟩ : x = t ∧ xs ++ [b] = rest := by simpa using hrow
          obtain ⟨js, rfl, hjs⟩ := ih hxs
          exact ⟨i :: js, rfl, .mark hi hjs⟩
  | @term w rest tree e is hw hnext hrest ih =>
      rcases List.eq_nil_or_concat rest with rfl | ⟨us, c, rfl⟩
      · rw [List.append_nil] at hrow
        exact absurd hb (hw.parts b (by simp [← hrow])).kind_ne_blank
      · -- the blank stands behind the term, since no term has a blank in it
        rw [List.concat_eq_append, ← List.append_assoc] at hrow
        obtain ⟨rfl, hbc⟩ := List.append_inj' hrow rfl
        have hconcat : us ++ [b] = us.concat c := by rw [List.concat_eq_append, hbc]
        obtain ⟨js, rfl, hjs⟩ := ih hconcat
        refine ⟨.term tree :: js, rfl, .term hw ?_ hjs⟩
        cases us with
        | nil => simp
        | cons u us => simpa using hnext

/-- A row that does not begin with a blank is trimmed at its end. -/
theorem exists_trimmed_of_first {ts : List Token} {is : List Item} (hspells : Spells ts is)
    (hlexed : Lexed ts) (hfirst : ∀ t ∈ ts.head?, t.kind ≠ .blank) :
    ∃ us js, Remainder us js ∧ tokensText us = (tokensText ts).trim ∧ solid js = solid is ∧
      js ⊆ is := by
  by_cases hne : ts = []
  · subst hne
    obtain rfl : [] = is := hspells.items_eq
    exact ⟨[], [], Or.inl ⟨rfl, rfl⟩, rfl, rfl, List.Subset.refl _⟩
  by_cases hlast : ∀ t ∈ ts.getLast?, t.kind ≠ .blank
  · exact ⟨ts, is, Or.inr ⟨hlexed, hspells, hne, hfirst, hlast⟩,
      (trim_tokensText hlexed hfirst hlast).symm, rfl, List.Subset.refl _⟩
  · -- there is one blank at the end at most, since two never touch
    obtain ⟨us, b, rfl⟩ := List.eq_nil_or_concat' ts |>.resolve_left hne
    have hb : b.kind = .blank := by simpa using hlast
    have hus : us ≠ [] := by
      rintro rfl
      exact hfirst b rfl hb
    obtain ⟨js, rfl, hjs⟩ := hspells.of_concat_blank hb
    have hhead : ∀ t ∈ us.head?, t.kind ≠ .blank := by
      obtain ⟨u, us, rfl⟩ := List.exists_cons_of_ne_nil hus
      simpa using hfirst
    have htail : ∀ t ∈ us.getLast?, t.kind ≠ .blank := by
      intro t ht hk
      have hmeet := (List.isChain_append.1 hlexed.touching).2.2 t ht b rfl
      rw [hk, hb] at hmeet
      cases hmeet
    have husLexed : Lexed us := hlexed.of_part (List.prefix_append us [b]).isInfix
    refine ⟨us, js, Or.inr ⟨husLexed, hjs, hus, hhead, htail⟩, ?_, by simp,
      List.subset_append_left js _⟩
    rw [trim_tokensText_concat hlexed hb hhead hus, trim_tokensText husLexed hhead htail]

/-- **A piece, once it is trimmed, is a phrase or nothing.** -/
theorem exists_trimmed {ts : List Token} {is : List Item} (hspells : Spells ts is)
    (hlexed : Lexed ts) :
    ∃ us js, Remainder us js ∧ tokensText us = (tokensText ts).trim ∧ solid js = solid is ∧
      js ⊆ is := by
  by_cases hfirst : ∀ t ∈ ts.head?, t.kind ≠ .blank
  · exact exists_trimmed_of_first hspells hlexed hfirst
  · cases ts with
    | nil => simp at hfirst
    | cons b ts =>
        have hb : b.kind = .blank := by simpa using hfirst
        have hmark := Item.ofMark?_blank hb
        have hsecond : ∀ t ∈ ts.head?, t.kind ≠ .blank := by
          intro t ht hk
          have hmeet := (List.isChain_cons.1 hlexed.touching).1 t ht
          rw [hk, hb] at hmeet
          cases hmeet
        obtain ⟨us, js, hrem, htext, hsolid, hsub⟩ := exists_trimmed_of_first
          (hspells.tail_of_mark hmark) (hlexed.of_part (List.suffix_cons b ts).isInfix) hsecond
        refine ⟨us, js, hrem, ?_, ?_, ?_⟩
        · rw [htext, trim_tokensText_cons (hlexed.lexeme b (by simp)) hb]
        · rw [hsolid, ← hspells.items_eq, items_mark hmark, solid_cons_blank]
        · rw [← hspells.items_eq, items_mark hmark]
          exact List.subset_cons_of_subset _ hsub

/-! ## Putting the pieces together -/

/-- Two pieces are put together to a phrase. -/
theorem Phrase.exists_appendPiece {ts us : List Token} {is js : List Item} (h : Phrase ts is)
    (h' : Phrase us js) (his : Plain is) (hjs : Plain js) :
    ∃ vs ks, Phrase vs ks ∧ tokensText vs = appendPiece (tokensText ts) (tokensText us) ∧
      solid ks = solid is ++ solid js ∧ Plain ks := by
  obtain ⟨t, ts, rfl⟩ := List.exists_cons_of_ne_nil h.ne_nil
  obtain ⟨u, us, rfl⟩ := List.exists_cons_of_ne_nil h'.ne_nil
  have hout : (tokensText (t :: ts)).isEmpty = false := by
    rw [List.isEmpty_eq_false_iff]
    exact h.tokensText_ne_nil
  by_cases hparen : (tokensText (t :: ts)).getLast? = some '(' ∨
      (tokensText (u :: us)).head? = some ')'
  · refine ⟨_, _, h.append h' ?_, ?_, solid_append is js, his.append hjs⟩
    · -- a parenthesis may touch whatever stands inside it
      intro a ha b hb
      rcases hparen with hleft | hright
      · obtain ⟨x, w, hx, hw⟩ := exists_last_of_getLast? h.lexed hleft
        obtain rfl : x = a := Option.some.inj (hx.symm.trans ha)
        have hmem := List.mem_of_getLast? hx
        have hk := (h.lexed.lexeme x hmem).kind_eq_leftParen_of_last (h.lexed.closed x hmem) hw
        rw [hk]
        exact ⟨rfl, Or.inl rfl⟩
      · obtain rfl : u = b := by simpa using hb
        have hlex := h'.lexed.lexeme u (by simp)
        obtain ⟨c, cs, hu⟩ := List.exists_cons_of_ne_nil hlex.text_ne_nil
        obtain rfl : c = ')' := by simpa [hu] using hright
        rw [hlex.kind_eq_rightParen_of_head hu]
        exact ⟨TokenKind.canPrecede_rightParen a.kind, Or.inr rfl⟩
    · rw [appendPiece, hout, if_neg (by simp), if_pos hparen, tokensText_append]
  · refine ⟨_, _, h.join h', ?_, by simp, ?_⟩
    · rw [appendPiece, hout, if_neg (by simp), if_neg hparen, tokensText_append, tokensText_cons]
      rfl
    · have hspace : Plain [.blank .space] := by simp [Plain]
      exact his.append (hspace.append hjs)

/-- The texts of the pieces that are put together. -/
def piecesText (runs : List (List Item)) : List Text :=
  (runs.map fun run => (tokensText (run.flatMap Item.tokens)).trim).filter fun t => !t.isEmpty

/-- Pieces that are put together one after the other stay a phrase. -/
theorem exists_foldl_appendPiece {runs : List (List Item)}
    (hruns : ∀ run ∈ runs, Plain run ∧ ∃ us, Spells us run ∧ Lexed us) {ts : List Token}
    {is : List Item} (h : Remainder ts is) (his : Plain is) :
    ∃ us js, Remainder us js ∧
      tokensText us = (piecesText runs).foldl appendPiece (tokensText ts) ∧
      solid js = solid is ++ runs.flatMap solid ∧ Plain js := by
  induction runs generalizing ts is with
  | nil => exact ⟨ts, is, h, rfl, by simp, his⟩
  | cons run runs ih =>
      obtain ⟨hplain, us, hspells, hlexed⟩ := hruns run (by simp)
      have hrest : ∀ r ∈ runs, Plain r ∧ ∃ us, Spells us r ∧ Lexed us :=
        fun r hr => hruns r (by simp [hr])
      obtain ⟨vs, js, hrem, htext, hsolid, hsub⟩ := exists_trimmed hspells hlexed
      have hpiece : (tokensText (run.flatMap Item.tokens)).trim = tokensText vs := by
        rw [htext, ← hspells.items_eq, tokensText_items]
      have hjs : Plain js := hplain.of_subset hsub
      -- a piece that is blank is left out, and any other is put behind what there is
      rcases hrem with ⟨rfl, rfl⟩ | hphrase
      · have hskip : piecesText (run :: runs) = piecesText runs := by simp [piecesText, hpiece]
        obtain ⟨ws, ks, hws, hwstext, hwssolid, hwsplain⟩ := ih hrest h his
        refine ⟨ws, ks, hws, by rw [hskip, hwstext], ?_, hwsplain⟩
        rw [hwssolid, List.flatMap_cons, ← hsolid]
        rfl
      · have hne : tokensText vs ≠ [] := hphrase.tokensText_ne_nil
        have hkeep : piecesText (run :: runs) = tokensText vs :: piecesText runs := by
          simp [piecesText, hpiece, hne]
        have hnext : ∃ xs ls, Remainder xs ls ∧
            tokensText xs = appendPiece (tokensText ts) (tokensText vs) ∧
            solid ls = solid is ++ solid js ∧ Plain ls := by
          rcases h with ⟨rfl, rfl⟩ | h
          · exact ⟨vs, js, Or.inr hphrase, rfl, rfl, hjs⟩
          · obtain ⟨xs, ls, hxs, hrest⟩ := h.exists_appendPiece hphrase his hjs
            exact ⟨xs, ls, Or.inr hxs, hrest⟩
        obtain ⟨xs, ls, hxs, hxstext, hxssolid, hxsplain⟩ := hnext
        obtain ⟨ws, ks, hws, hwstext, hwssolid, hwsplain⟩ := ih hrest hxs hxsplain
        refine ⟨ws, ks, hws, by rw [hkeep, hwstext, List.foldl_cons, hxstext], ?_, hwsplain⟩
        rw [hwssolid, hxssolid, List.flatMap_cons, hsolid, List.append_assoc]

/-- **What is left between cuts is a phrase, or nothing.** -/
theorem Cuts.exists_phrase {ts : List Token} {is js : List Item} {kept : List (Option Token)}
    (hspells : Spells ts is) (hlexed : Lexed ts) (h : Cuts is kept js) :
    ∃ us ks, Remainder us ks ∧ tokensText us = residualText kept ∧ solid ks = js ∧ Plain ks := by
  obtain ⟨m, hmasked, rfl, rfl, hplain⟩ := h
  obtain ⟨run, runs, hruns⟩ := exists_runsOf m
  obtain ⟨hfirst, hrest⟩ := hmasked.runs hruns
  have hpart : ∀ r ∈ run :: runs, r <:+: is := by
    intro r hr
    rcases List.mem_cons.1 hr with rfl | hr
    · exact hfirst.isInfix
    · exact hrest r hr
  have hflat := flatten_runsOf m
  rw [hruns] at hflat
  have hspelled : ∀ r ∈ run :: runs, Plain r ∧ ∃ us, Spells us r ∧ Lexed us := by
    intro r hr
    refine ⟨hplain.of_subset fun i hi => ?_, ?_⟩
    · rw [← hflat]
      exact List.mem_flatten.2 ⟨r, hr, hi⟩
    · -- the run is spelled by the tokens at its place
      obtain ⟨before, after, rfl⟩ := hpart r hr
      obtain ⟨us, vs, rfl, hus, -⟩ := hspells.split
      obtain ⟨xs, ys, rfl, -, hys⟩ := hus.split
      refine ⟨ys, hys, hlexed.of_part ?_⟩
      exact (List.suffix_append xs ys).isInfix.trans (List.prefix_append _ vs).isInfix
  have hnothing : Remainder [] [] := Or.inl ⟨rfl, rfl⟩
  obtain ⟨us, ks, hus, htext, hsolid, hksplain⟩ :=
    exists_foldl_appendPiece hspelled hnothing (by simp [Plain])
  refine ⟨us, ks, hus, ?_, ?_, hksplain⟩
  · rw [htext, residualText, piecesOf_keptOf, hruns, piecesText, List.map_map]
    rfl
  · rw [hsolid, ← hflat, solid_flatten, solid_nil, List.nil_append]

end CardQuery
