import CardQuery.Proofs.Parse.HeaderCut

/-!
# The grammar of queries

`Derives` is the grammar of the texts without errors, as rules over the tokens that are still to be
read: `Derives s input rest` says that what stands in `input` before `rest` is derived from `s`.
The value of a tag takes all the words and minus signs there are, so its rule has to look at the
rest.

Main statement: a text has no syntax error just when each piece between its headers is derived as
a region (`syntaxErrors_parse_eq_nil_iff`).
-/

set_option autoImplicit false

namespace CardQuery

/-- The nonterminals of the grammar. -/
inductive Symbol
  | region
  | or
  | and
  | term
  | value
  deriving DecidableEq

/-- At most one token of a kind stands before the rest. -/
def Skips (k : TokenKind) (input rest : List Token) : Prop :=
  input = rest ∨ ∃ t, t.kind = k ∧ input = t :: rest

/-- The grammar. -/
inductive Derives : Symbol → List Token → List Token → Prop
  | blank {i r : List Token} (gap : Skips .blank i r) : Derives .region i r
  | whole {i a b r : List Token} (gap : Skips .blank i a) (h : Derives .or a b)
      (gap' : Skips .blank b r) : Derives .region i r
  | or {i r : List Token} (h : Derives .and i r) : Derives .or i r
  | orNext {i a b c r : List Token} {kw : Token} (h : Derives .or i a)
      (gap : Skips .blank a (kw :: b)) (hkw : kw.kind = .keyword .or) (gap' : Skips .blank b c)
      (h' : Derives .and c r) : Derives .or i r
  | and {i r : List Token} (h : Derives .term i r) : Derives .and i r
  | andNext {i a b c r : List Token} {kw : Token} (h : Derives .and i a)
      (gap : Skips .blank a (kw :: b)) (hkw : kw.kind = .keyword .and) (gap' : Skips .blank b c)
      (h' : Derives .term c r) : Derives .and i r
  | next {i a b r : List Token} (h : Derives .and i a) (gap : Skips .blank a b)
      (h' : Derives .term b r) : Derives .and i r
  | clause {o c : Token} {i r : List Token} (ho : o.kind = .leftParen)
      (h : Derives .region i (c :: r)) (hc : c.kind = .rightParen) : Derives .term (o :: i) r
  | word {i r : List Token} {w : Token} (sign : Skips .minus i (w :: r)) (hw : w.kind = .word) :
      Derives .term i r
  | tag {i a r : List Token} {w op : Token} (sign : Skips .minus i (w :: op :: a))
      (hw : w.kind = .word) (hop : op.kind.isComparison = true) (h : Derives .value a r) :
      Derives .term i r
  | literal {i r : List Token} {t : Token} {k : LiteralKind} (sign : Skips .minus i (t :: r))
      (hk : t.kind = .literal k) (hclosed : t.isClosed = true) : Derives .term i r
  | quoted {r : List Token} {t : Token} {k : LiteralKind} (hk : t.kind = .literal k)
      (hclosed : t.isClosed = true) : Derives .value (t :: r) r
  | keyword {r : List Token} {t : Token} {op : Connective} (hk : t.kind = .keyword op) :
      Derives .value (t :: r) r
  | words {ts r : List Token} (hne : ts ≠ []) (hts : ∀ t ∈ ts, t.kind = .word ∨ t.kind = .minus)
      (longest : ∀ t ∈ r.head?, t.kind ≠ .word ∧ t.kind ≠ .minus) : Derives .value (ts ++ r) r

/-! ## What is derived is read -/

/-- What stands before the rest, read as the nonterminal says: the items of an expression, or a
value. -/
def Symbol.Reads : Symbol → List Token → List Token → Prop
  | .region, i, r => ∃ is, items i = is ++ items r ∧
      (solid is = [] ∨ ∃ t, Shape (.row .or) t ∧ solid is = t.yield)
  | .or, i, r => ∃ is t, items i = is ++ items r ∧ Shape (.row .or) t ∧ solid is = t.yield
  | .and, i, r => ∃ is t, items i = is ++ items r ∧ Shape (.row .and) t ∧ solid is = t.yield
  | .term, i, r => ∃ is t, items i = is ++ items r ∧ Shape .term t ∧ solid is = t.yield
  | .value, i, r => ∃ ts v e, i = ts ++ r ∧ SpelledValue ts v e ∧
      ∀ t ∈ r.head?, e.takes t.kind = false

theorem Skips.settled {k : TokenKind} {i r : List Token} (h : Skips k i r)
    (hk : k.isComparison = false) (hr : Settled r) : Settled i := by
  rcases h with rfl | ⟨t, rfl, rfl⟩
  · exact hr
  · simpa [Settled] using hk

theorem Skips.items_eq {i r : List Token} (h : Skips .blank i r) :
    ∃ bs, items i = bs ++ items r ∧ solid bs = [] := by
  rcases h with rfl | ⟨t, ht, rfl⟩
  · exact ⟨[], rfl, rfl⟩
  · exact ⟨[.blank t], items_mark (Item.ofMark?_blank ht) r, rfl⟩

/-- An expression does not begin with a comparison. -/
theorem Derives.settled {s : Symbol} {i r : List Token} (h : Derives s i r)
    (hs : s = .or ∨ s = .and ∨ s = .term) : Settled i := by
  have hword : ∀ {i r : List Token} {w : Token}, Skips .minus i (w :: r) →
      w.kind.isComparison = false → Settled i :=
    fun hskip hw => hskip.settled rfl (settled_cons hw _)
  induction h with
  | clause ho h hc ih => exact settled_cons (by rw [ho]; rfl) _
  | word sign hw => exact hword sign (by rw [hw]; rfl)
  | tag sign hw hop h ih => exact hword sign (by rw [hw]; rfl)
  | literal sign hk hclosed => exact hword sign (by rw [hk]; rfl)
  | or h ih => exact ih (by simp)
  | and h ih => exact ih (by simp)
  | orNext h gap hkw gap' h' ih ih' => exact ih (by simp)
  | andNext h gap hkw gap' h' ih ih' => exact ih (by simp)
  | next h gap h' ih ih' => exact ih (by simp)
  | _ => simp at hs

/-- A term that is spelled in the tokens before the rest is read there. -/
theorem reads_term {w r : List Token} {tree : Tree} {e : Ending} (h : SpelledTerm w tree e)
    (hnext : ∀ t ∈ r.head?, e.takes t.kind = false) : Symbol.term.Reads (w ++ r) r :=
  ⟨[.term tree], tree, h.items_append hnext, .simple h, by rw [h.yield_eq]; rfl⟩

/-- Two operands with a connective between them are read as one expression. -/
theorem reads_join {op : Connective} {is js : List Item} {l r : Tree} {k : Option Token}
    {i a c rest : List Token} (hi : items i = is ++ items a) (hl : Shape (.row op) l)
    (his : solid is = l.yield) (hgap : ∃ bs, items a = bs ++ items c ∧
      solid bs = Tree.yieldEach (k.toList.map .token)) (hk : Joins op k)
    (hc : items c = js ++ items rest) (hr : Shape (.right op) r) (hjs : solid js = r.yield) :
    ∃ is t, items i = is ++ items rest ∧ Shape (.row op) t ∧ solid is = t.yield := by
  obtain ⟨bs, ha, hbs⟩ := hgap
  refine ⟨is ++ bs ++ js, _, ?_, .join hl hk hr, ?_⟩
  · calc items i = is ++ (bs ++ items c) := by rw [hi, ha]
      _ = is ++ (bs ++ (js ++ items rest)) := by rw [hc]
      _ = is ++ bs ++ js ++ items rest := by simp
  · calc solid (is ++ bs ++ js) = solid is ++ solid bs ++ solid js := by simp
      _ = l.yield ++ Tree.yieldEach (k.toList.map .token) ++ r.yield := by rw [his, hbs, hjs]
      _ = (Tree.node (.binary op) (l :: (k.toList.map .token ++ [r]))).yield := by simp

/-- A keyword with the blanks around it. -/
theorem items_keyword {op : Connective} {kw : Token} {a b c : List Token}
    (gap : Skips .blank a (kw :: b)) (hkw : kw.kind = .keyword op) (gap' : Skips .blank b c) :
    ∃ bs, items a = bs ++ items c ∧
      solid bs = Tree.yieldEach ((some kw).toList.map .token) := by
  obtain ⟨bs, ha, hbs⟩ := gap.items_eq
  obtain ⟨cs, hb, hcs⟩ := gap'.items_eq
  refine ⟨bs ++ .keyword op kw :: cs, ?_, ?_⟩
  · rw [ha, items_mark (Item.ofMark?_keyword hkw), hb]
    simp
  · rw [solid_append, hbs, solid_cons rfl, hcs]
    simp [Item.ofMark?_keyword hkw]

theorem Settled.takes_word {r : List Token} (h : Settled r) :
    ∀ t ∈ r.head?, Ending.word.takes t.kind = false := by
  intro t ht
  have hcomp := h t ht
  cases hk : t.kind <;> simp_all [TokenKind.isComparison, Ending.takes]

/-- **What the grammar derives is read as an expression.** -/
theorem Derives.reads {s : Symbol} {i r : List Token} (h : Derives s i r) (hr : Settled r) :
    s.Reads i r := by
  induction h with
  | blank gap =>
      obtain ⟨bs, hbs, hsolid⟩ := gap.items_eq
      exact ⟨bs, hbs, Or.inl hsolid⟩
  | whole gap h gap' ih =>
      obtain ⟨bs, hbs, hbsolid⟩ := gap.items_eq
      obtain ⟨cs, hcs, hcsolid⟩ := gap'.items_eq
      obtain ⟨is, t, his, ht, hsolid⟩ := ih (gap'.settled rfl hr)
      refine ⟨bs ++ is ++ cs, ?_, Or.inr ⟨t, ht, ?_⟩⟩
      · rw [hbs, his, hcs]
        simp
      · simp [hbsolid, hcsolid, hsolid]
  | or h ih =>
      obtain ⟨is, t, his, ht, hsolid⟩ := ih hr
      exact ⟨is, t, his, .ofAnd ht, hsolid⟩
  | and h ih =>
      obtain ⟨is, t, his, ht, hsolid⟩ := ih hr
      exact ⟨is, t, his, .ofTerm ht, hsolid⟩
  | @orNext i a b c r kw h gap hkw gap' h' ih ih'
  | @andNext i a b c r kw h gap hkw gap' h' ih ih' =>
      have ha : Settled a := gap.settled rfl (settled_cons (by rw [hkw]; rfl) b)
      obtain ⟨is, t, his, ht, hsolid⟩ := ih ha
      obtain ⟨js, u, hjs, hu, husolid⟩ := ih' hr
      exact reads_join his ht hsolid (items_keyword gap hkw gap')
        ⟨by simpa using hkw, by simp⟩ hjs hu husolid
  | next h gap h' ih ih' =>
      -- what follows the left operand is a term, and no term begins with a comparison
      obtain ⟨is, t, his, ht, hsolid⟩ := ih (gap.settled rfl (h'.settled (by simp)))
      obtain ⟨js, u, hjs, hu, husolid⟩ := ih' hr
      exact reads_join (k := none) his ht hsolid gap.items_eq ⟨by simp, by simp⟩ hjs hu husolid
  | @clause o c i r ho h hc ih =>
      obtain ⟨is, his, hexpr⟩ := ih (settled_cons (by rw [hc]; rfl) r)
      have hitems : items (o :: i) = (.opening o :: is ++ [.closing c]) ++ items r := by
        rw [items_mark (Item.ofMark?_leftParen ho), his, items_mark (Item.ofMark?_rightParen hc)]
        simp
      rcases hexpr with hnil | ⟨t, ht, hyield⟩
      · refine ⟨_, _, hitems, .empty ho hc, ?_⟩
        rw [solid_parens, hnil, Tree.yield_empty ho hc]
        rfl
      · refine ⟨_, _, hitems, .clause ho hc ht, ?_⟩
        rw [solid_parens, hyield, Tree.yield_parens ho hc]
  | word sign hw =>
      rcases sign with rfl | ⟨m, hm, rfl⟩
      · exact reads_term (.word hw) hr.takes_word
      · exact reads_term (.signedWord hm hw) hr.takes_word
  | tag sign hw hop h ih =>
      obtain ⟨ts, v, e, rfl, hv, hnext⟩ := ih hr
      rcases sign with rfl | ⟨m, hm, rfl⟩
      · have hterm : SpelledTerm (_ :: _ :: ts) _ e := .tag (s := none) (by simp) hw hop hv
        exact reads_term hterm hnext
      · have hterm : SpelledTerm (m :: _ :: _ :: ts) _ e :=
          .tag (s := some m) (by simpa using hm) hw hop hv
        exact reads_term hterm hnext
  | literal sign hk hclosed =>
      rcases sign with rfl | ⟨m, hm, rfl⟩
      · exact reads_term (.literal hk hclosed) fun _ _ => rfl
      · exact reads_term (.signedLiteral hm hk hclosed) fun _ _ => rfl
  | quoted hk hclosed => exact ⟨_, _, _, rfl, .literal hk hclosed, fun _ _ => rfl⟩
  | keyword hk => exact ⟨_, _, _, rfl, .keyword hk, fun _ _ => rfl⟩
  | words hne hts longest =>
      -- the run cannot go on, since it is the longest
      refine ⟨_, _, _, rfl, .words hne hts, ?_⟩
      intro t ht
      have hlongest := longest t ht
      cases hk : t.kind <;> simp_all [Ending.takes]

/-! ## What is read is derived -/

/-- A spelled row, with the solid items that it consists of. -/
def Remains (ts : List Token) (js : List Item) : Prop :=
  Touching ts ∧ ∃ is, Spells ts is ∧ solid is = js

/-- A spelled row that does not begin with a blank. -/
def Ready (ts : List Token) (js : List Item) : Prop :=
  Remains ts js ∧ ∀ t ∈ ts.head?, t.kind ≠ .blank

theorem Remains.tail {w ts : List Token} {is : List Item} (ht : Touching (w ++ ts))
    (hs : Spells ts is) : Remains ts (solid is) :=
  ⟨ht.suffix (List.suffix_append w ts), is, hs, rfl⟩

/-- There is one blank between two solid items at most. -/
theorem Remains.skip {ts : List Token} {js : List Item} (h : Remains ts js) :
    ∃ us, Skips .blank ts us ∧ Ready us js := by
  obtain ⟨htouch, is, hspells, rfl⟩ := h
  by_cases hhead : ∀ t ∈ ts.head?, t.kind ≠ .blank
  · exact ⟨ts, Or.inl rfl, ⟨htouch, is, hspells, rfl⟩, hhead⟩
  · cases ts with
    | nil => simp at hhead
    | cons t us =>
        have ht : t.kind = .blank := by simpa using hhead
        have hmark := Item.ofMark?_blank ht
        rw [← hspells.items_eq, items_mark hmark, solid_cons_blank]
        -- two blanks never touch, so the next token is solid
        refine ⟨us, Or.inr ⟨t, ht, rfl⟩,
          Remains.tail (w := [t]) htouch (hspells.tail_of_mark hmark), ?_⟩
        intro x hx
        cases us with
        | nil => cases hx
        | cons y us =>
            obtain rfl : y = x := by simpa using hx
            have hprecede : t.kind.canPrecede y.kind = true := (List.isChain_cons_cons.1 htouch).1
            simpa [ht, TokenKind.canPrecede] using hprecede

/-- The first solid item of a row that is ready is its first item. -/
theorem Ready.uncons {ts : List Token} {i : Item} {js : List Item} (h : Ready ts (i :: js)) :
    ∃ is, Spells ts (i :: is) ∧ solid is = js := by
  obtain ⟨⟨-, is, hspells, hsolid⟩, hhead⟩ := h
  cases hspells with
  | nil => cases hsolid
  | @mark t x ts is hi rest =>
      have hx : x.isBlank = false := Item.isBlank_of_ofMark? hi (hhead t rfl)
      rw [solid_cons hx, List.cons.injEq] at hsolid
      obtain ⟨rfl, hrest⟩ := hsolid
      exact ⟨is, .mark hi rest, hrest⟩
  | @term w ts tree e is hw hnext rest =>
      rw [solid_cons rfl, List.cons.injEq] at hsolid
      obtain ⟨rfl, hrest⟩ := hsolid
      exact ⟨is, .term hw hnext rest, hrest⟩

theorem Ready.nil {ts : List Token} (h : Ready ts []) : ts = [] := by
  obtain ⟨⟨-, is, hspells, hsolid⟩, hhead⟩ := h
  cases hspells with
  | nil => rfl
  | @mark t x ts is hi rest =>
      rw [solid_cons (Item.isBlank_of_ofMark? hi (hhead t rfl))] at hsolid
      cases hsolid
  | term hw hnext rest => cases hsolid

/-- A parenthesis or a keyword at the start of a row is a single token. -/
theorem Ready.mark {ts : List Token} {t : Token} {i : Item} {js : List Item}
    (h : Ready ts (i :: js)) (ht : Item.ofMark? t = some i) :
    ∃ us, ts = t :: us ∧ Remains us js := by
  obtain ⟨is, hspells, hsolid⟩ := h.uncons
  cases hspells with
  | @mark t' i ts is hi rest =>
      have hsame : [t'] = [t] :=
        (Item.tokens_of_ofMark? hi).symm.trans (Item.tokens_of_ofMark? ht)
      obtain rfl : t' = t := by simpa using hsame
      exact ⟨ts, rfl, hsolid ▸ Remains.tail (w := [t']) h.1.1 rest⟩
  | term hw hnext rest => exact absurd ht (Item.ofMark?_ne_term t _)

/-- A term at the start of a row is derived. -/
theorem Ready.term {ts : List Token} {tree : Tree} {js : List Item}
    (h : Ready ts (.term tree :: js)) : ∃ us, Derives .term ts us ∧ Remains us js := by
  obtain ⟨is, hspells, hsolid⟩ := h.uncons
  cases hspells with
  | mark hi rest => exact absurd hi (Item.ofMark?_ne_term _ tree)
  | @term w us tree e is hw hnext rest =>
      refine ⟨us, ?_, hsolid ▸ Remains.tail h.1.1 rest⟩
      cases hw with
      | literal hk hclosed => exact .literal (Or.inl rfl) hk hclosed
      | word hw => exact .word (Or.inl rfl) hw
      | signedLiteral hm hk hclosed => exact .literal (Or.inr ⟨_, hm, rfl⟩) hk hclosed
      | signedWord hm hw => exact .word (Or.inr ⟨_, hm, rfl⟩) hw
      | @tag sign a op vs v e hsign ha hop hv =>
          have hvalue : Derives .value (vs ++ us) us := by
            cases hv with
            | literal hk hclosed => exact .quoted hk hclosed
            | keyword hk => exact .keyword hk
            | words hne hts =>
                refine .words hne hts fun t ht => ?_
                have hlongest := hnext t ht
                constructor <;> intro hk <;> simp [hk, Ending.takes] at hlongest
          cases sign with
          | none => exact .tag (Or.inl rfl) ha hop hvalue
          | some m => exact .tag (Or.inr ⟨m, hsign m rfl, rfl⟩) ha hop hvalue

/-- The nonterminal of a level. -/
def Level.symbol : Level → Symbol
  | .term => .term
  | .row .and => .and
  | .row .or => .or

/-- **An expression at the start of a row is derived.** -/
theorem Shape.derives {lvl : Level} {t : Tree} (h : Shape lvl t) {ts : List Token}
    {js : List Item} (hready : Ready ts (t.yield ++ js)) :
    ∃ us, Derives lvl.symbol ts us ∧ Remains us js := by
  induction h generalizing ts js with
  | simple h =>
      rw [h.yield_eq] at hready
      exact hready.term
  | @empty o c ho hc =>
      rw [Tree.yield_empty ho hc] at hready
      obtain ⟨us, rfl, hus⟩ := hready.mark (Item.ofMark?_leftParen ho)
      obtain ⟨vs, hgap, hvs⟩ := hus.skip
      obtain ⟨ws, rfl, hws⟩ := hvs.mark (Item.ofMark?_rightParen hc)
      exact ⟨ws, .clause ho (.blank hgap) hc, hws⟩
  | @clause o c t ho hc ht ih =>
      rw [Tree.yield_parens ho hc, List.cons_append, List.cons_append, List.append_assoc] at hready
      obtain ⟨us, rfl, hus⟩ := hready.mark (Item.ofMark?_leftParen ho)
      obtain ⟨vs, hgap, hvs⟩ := hus.skip
      obtain ⟨ws, hexpr, hws⟩ := ih hvs
      obtain ⟨xs, hgap', hxs⟩ := hws.skip
      obtain ⟨ys, rfl, hys⟩ := hxs.mark (Item.ofMark?_rightParen hc)
      exact ⟨ys, .clause ho (.whole hgap hexpr hgap') hc, hys⟩
  | @join op kw l r hl hkw hr ihl ihr =>
      rw [Tree.yield_binary, Tree.yieldEach_cons, Tree.yieldEach_append, Tree.yieldEach_cons,
        Tree.yieldEach_nil, List.append_nil, List.append_assoc, List.append_assoc] at hready
      -- the left operand ends where its items end, and the right one begins behind the gap
      obtain ⟨us, hleft, hus⟩ := ihl hready
      obtain ⟨vs, hgap, hvs⟩ := hus.skip
      cases kw with
      | none =>
          obtain ⟨ws, hright, hws⟩ := ihr hvs
          cases op with
          | and => exact ⟨ws, .next hleft hgap hright, hws⟩
          | or => exact absurd rfl (hkw.2 rfl)
      | some t =>
          have ht : t.kind = .keyword op := hkw.1 t rfl
          simp only [Option.toList_some, List.map_cons, List.map_nil, Tree.yieldEach_cons,
            Tree.yield_token, Item.ofMark?_keyword ht, Tree.yieldEach_nil, List.append_nil,
            List.singleton_append] at hvs
          obtain ⟨ws, rfl, hws⟩ := hvs.mark (Item.ofMark?_keyword ht)
          obtain ⟨xs, hgap', hxs⟩ := hws.skip
          obtain ⟨ys, hright, hys⟩ := ihr hxs
          cases op with
          | and => exact ⟨ys, .andNext hleft hgap ht hgap' hright, hys⟩
          | or => exact ⟨ys, .orNext hleft hgap ht hgap' hright, hys⟩
  | ofTerm h ih =>
      obtain ⟨us, hterm, hus⟩ := ih hready
      exact ⟨us, .and hterm, hus⟩
  | ofAnd h ih =>
      obtain ⟨us, hand, hus⟩ := ih hready
      exact ⟨us, .or hand, hus⟩

/-! ## Acceptance -/

/-- A region is without errors just when the grammar derives it. -/
theorem derives_region_iff {ts : List Token} (h : Touching ts) :
    Derives .region ts [] ↔ Tree.faultlessEach (regionTrees ts) = true := by
  constructor
  · intro hderives
    obtain ⟨is, his, hexpr⟩ := hderives.reads (by simp [Settled])
    have hitems : items ts = is := by simpa [items] using his
    rw [← Tree.faultlessEach_squeezeEach, squeezeEach_regionTrees, hitems]
    rcases hexpr with hnil | ⟨t, ht, hyield⟩
    · rw [hnil]
      rfl
    · rw [hyield, ht.joined_yield]
      simp [ht.faultless]
  · intro hfault
    obtain ⟨t, ht⟩ := reads_of_faultless hfault
    cases t with
    | none =>
        obtain ⟨is, hspells, hsolid⟩ := ht
        obtain ⟨us, hgap, hus⟩ := Remains.skip ⟨h, is, hspells, hsolid⟩
        exact .blank (hus.nil ▸ hgap)
    | some t =>
        obtain ⟨is, hspells, hshape, hsolid⟩ := ht
        obtain ⟨us, hgap, hus⟩ := Remains.skip ⟨h, is, hspells, hsolid⟩
        rw [← List.append_nil t.yield] at hus
        obtain ⟨vs, hexpr, hvs⟩ := hshape.derives hus
        obtain ⟨ws, hgap', hws⟩ := hvs.skip
        exact .whole hgap hexpr (hws.nil ▸ hgap')

/-- **The texts without syntax errors are those that the grammar derives, piece by piece.** -/
theorem syntaxErrors_parse_eq_nil_iff (t : Text) :
    syntaxErrors (parse t) = [] ↔ ∀ piece ∈ pieces (tokenize t), Derives .region piece [] := by
  rw [syntaxErrors_eq_nil_iff, parse, faultless_parseTokens_iff, regionsOf_eq_pieces]
  refine forall₂_congr fun piece hpiece => ?_
  rw [← regionsOf_eq_pieces] at hpiece
  have htouch : Touching piece := (touching_tokenize t).of_part (part_of_mem_regionsOf hpiece)
  exact (derives_region_iff htouch).symm

end CardQuery
