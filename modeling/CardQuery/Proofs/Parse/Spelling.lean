import CardQuery.Parse.Term
import CardQuery.Proofs.Token.Lexeme
import CardQuery.Proofs.Tree.Faultless

/-!
# How items are spelled

`SpelledTerm` lists the ways to write a term without an error, and `Spells` the rows of tokens
that consist of such terms, blanks, keywords and parentheses. A term that ends in a word could go
on with the next token, so its `Ending` says which kinds of token may not follow it.

Main statements: gathering reads a spelled row back item by item (`Spells.items_eq`), and every
row whose items are faultless is spelled (`spells_of_faultless`).
-/

set_option autoImplicit false

namespace CardQuery

/-- How a term ends: by itself, with a word that a comparison would make an argument, or with a
value that further words would lengthen. -/
inductive Ending
  | closed
  | word
  | value
  deriving DecidableEq

/-- Whether a term with this ending goes on with a token of this kind. -/
def Ending.takes : Ending → TokenKind → Bool
  | .word, .comparison _ => true
  | .value, .word | .value, .minus => true
  | _, _ => false

/-- The tokens of a value without errors, and its tree. -/
inductive SpelledValue : List Token → Tree → Ending → Prop
  | literal {k : LiteralKind} {t : Token} (hk : t.kind = .literal k) (hclosed : t.isClosed = true) :
      SpelledValue [t] (.leaf (.literal k) t) .closed
  | keyword {op : Connective} {t : Token} (hk : t.kind = .keyword op) :
      SpelledValue [t] (.leaf .value ⟨.word, t.text⟩) .closed
  | words {ts : List Token} (hne : ts ≠ []) (hts : ∀ t ∈ ts, t.kind = .word ∨ t.kind = .minus) :
      SpelledValue ts (.flat .value ts) .value

/-- The tokens of a term without errors, and its tree. -/
inductive SpelledTerm : List Token → Tree → Ending → Prop
  | literal {k : LiteralKind} {t : Token} (hk : t.kind = .literal k) (hclosed : t.isClosed = true) :
      SpelledTerm [t] (.leaf (.literal k) t) .closed
  | word {w : Token} (hw : w.kind = .word) : SpelledTerm [w] (.leaf .argument w) .word
  | signedLiteral {k : LiteralKind} {m t : Token} (hm : m.kind = .minus) (hk : t.kind = .literal k)
      (hclosed : t.isClosed = true) :
      SpelledTerm [m, t] (.node .tag [.leaf .sign m, .leaf (.literal k) t]) .closed
  | signedWord {m w : Token} (hm : m.kind = .minus) (hw : w.kind = .word) :
      SpelledTerm [m, w] (.node .tag [.leaf .sign m, .leaf .argument w]) .word
  | tag {s : Option Token} {a op : Token} {ts : List Token} {v : Tree} {e : Ending}
      (hsign : ∀ m ∈ s, m.kind = .minus) (ha : a.kind = .word)
      (hop : op.kind.isComparison = true) (hv : SpelledValue ts v e) :
      SpelledTerm (s.toList ++ a :: op :: ts)
        (.node .tag (s.toList.map (Tree.leaf .sign)
          ++ [.leaf .argument a, .leaf .operator op, v])) e

/-- The item that a blank, a keyword or a parenthesis is. -/
def Item.ofMark? (t : Token) : Option Item :=
  match t.kind with
  | .blank => some (.blank t)
  | .keyword op => some (.keyword op t)
  | .leftParen => some (.opening t)
  | .rightParen => some (.closing t)
  | _ => none

namespace Item

theorem ofMark?_ne_term (t : Token) (tree : Tree) : ofMark? t ≠ some (.term tree) := by
  unfold ofMark?
  split <;> simp

/-- A mark holds just its token. -/
theorem tokens_of_ofMark? {t : Token} {i : Item} (h : ofMark? t = some i) : i.tokens = [t] := by
  unfold ofMark? at h
  split at h <;> cases h <;> rfl

end Item

/-- The items of a row of tokens without errors. -/
inductive Spells : List Token → List Item → Prop
  | nil : Spells [] []
  | mark {t : Token} {i : Item} {ts : List Token} {is : List Item} (hi : Item.ofMark? t = some i)
      (rest : Spells ts is) : Spells (t :: ts) (i :: is)
  | term {w ts : List Token} {tree : Tree} {e : Ending} {is : List Item}
      (hw : SpelledTerm w tree e) (hnext : ∀ t ∈ ts.head?, e.takes t.kind = false)
      (rest : Spells ts is) : Spells (w ++ ts) (.term tree :: is)

/-! ## Reading a spelled row -/

namespace Draft

/-- The draft after further tokens, if all of them belong to it. -/
def after (d : Draft) : List Token → Option Draft
  | [] => some d
  | t :: ts => (d.extend t).bind fun d' => d'.after ts

theorem run_after {d d' : Draft} {ws : List Token} (h : d.after ws = some d') (ts : List Token) :
    d.run (ws ++ ts) = d'.run ts := by
  induction ws generalizing d with
  | nil =>
      cases h
      rfl
  | cons w ws ih =>
      cases hw : d.extend w with
      | none => simp [after, hw] at h
      | some d₁ =>
          have hrest : d₁.after ws = some d' := by simpa [after, hw] using h
          rw [List.cons_append, run, hw]
          exact ih hrest

/-- An item ends where the next token does not belong to it. -/
theorem run_stop {d : Draft} {ts : List Token} (h : ∀ t ∈ ts.head?, d.extend t = none) :
    d.run ts = d.finish (ts.head?.map Token.kind) :: items ts := by
  cases ts with
  | nil => rfl
  | cons t ts =>
      have ht : d.extend t = none := h t rfl
      simp [run, ht, items]

/-- Every reading goes on as long as tokens belong to the item, and stops there. -/
theorem run_eq (d : Draft) (ts : List Token) :
    ∃ ws d' rest, ts = ws ++ rest ∧ d.after ws = some d' ∧
      (∀ t ∈ rest.head?, d'.extend t = none) ∧
      d.run ts = d'.finish (rest.head?.map Token.kind) :: items rest := by
  induction ts generalizing d with
  | nil => exact ⟨[], d, [], rfl, rfl, by simp, rfl⟩
  | cons t ts ih =>
      cases ht : d.extend t with
      | none =>
          have hstop : ∀ x ∈ (t :: ts).head?, d.extend x = none := by simpa using ht
          exact ⟨[], d, t :: ts, rfl, rfl, hstop, run_stop hstop⟩
      | some d₁ =>
          obtain ⟨ws, d', rest, rfl, hws, hrest, hrun⟩ := ih d₁
          refine ⟨t :: ws, d', rest, rfl, ?_, hrest, ?_⟩
          · simpa [after, ht] using hws
          · rw [run, ht]
            exact hrun

theorem after_words {sign : Option Token} {a op : Token} {words ts : List Token}
    (h : ∀ t ∈ ts, t.kind = .word ∨ t.kind = .minus) :
    (value sign a op words).after ts = some (value sign a op (words ++ ts)) := by
  induction ts generalizing words with
  | nil => simp [after]
  | cons t ts ih =>
      have ht : (value sign a op words).extend t = some (value sign a op (words ++ [t])) := by
        rcases h t (by simp) with hk | hk <;> simp [extend, hk]
      simp [after, ht, ih fun x hx => h x (by simp [hx])]

end Draft

theorem items_cons (t : Token) (ts : List Token) : items (t :: ts) = (Draft.start t).run ts := rfl

theorem items_mark {t : Token} {i : Item} (h : Item.ofMark? t = some i) (ts : List Token) :
    items (t :: ts) = i :: items ts := by
  have hstart : Draft.start t = .complete i := by
    unfold Item.ofMark? at h
    unfold Draft.start
    split at h <;> cases h <;> simp_all
  rw [items_cons, hstart, Draft.run_stop fun _ _ => rfl]
  rfl

/-- What the reading of a row comes to, by the draft that its first tokens lead to. -/
theorem items_of_after {t : Token} {w ts : List Token} {d : Draft}
    (hd : (Draft.start t).after w = some d) (hstop : ∀ x ∈ ts.head?, d.extend x = none) :
    items (t :: w ++ ts) = d.finish (ts.head?.map Token.kind) :: items ts := by
  rw [List.cons_append, items_cons, Draft.run_after hd, Draft.run_stop hstop]

/-- The value of a tag is read on from the comparison. -/
theorem SpelledValue.exists_draft {ts : List Token} {v : Tree} {e : Ending}
    (h : SpelledValue ts v e) (sign : Option Token) (a op : Token) :
    ∃ d, (Draft.tag sign a op).after ts = some d ∧
      (∀ x : Token, e.takes x.kind = false → d.extend x = none) ∧
      ∀ next, d.finish next
        = Draft.tagOf sign [.leaf .argument a, .leaf .operator op, v] := by
  cases h with
  | @literal k t hk hclosed =>
      refine ⟨.complete (Draft.tagOf sign
        [.leaf .argument a, .leaf .operator op, .leaf (.literal k) t]), ?_, fun _ _ => rfl,
        fun _ => rfl⟩
      simp [Draft.after, Draft.extend, hk]
  | @keyword c t hk =>
      refine ⟨.complete (Draft.tagOf sign
        [.leaf .argument a, .leaf .operator op, .leaf .value ⟨.word, t.text⟩]), ?_,
        fun _ _ => rfl, fun _ => rfl⟩
      simp [Draft.after, Draft.extend, hk]
  | words hne hts =>
      obtain ⟨t, ts, rfl⟩ := List.exists_cons_of_ne_nil hne
      have ht : (Draft.tag sign a op).extend t = some (.value sign a op [t]) := by
        rcases hts t (by simp) with hk | hk <;> simp [Draft.extend, hk]
      refine ⟨.value sign a op (t :: ts), ?_, ?_, fun _ => rfl⟩
      · rw [Draft.after, ht, Option.bind_some, Draft.after_words fun x hx => hts x (by simp [hx])]
        rfl
      · intro x hx
        cases hk : x.kind <;> simp_all [Draft.extend, Ending.takes]

/-- A term is read off the row it begins. -/
theorem SpelledTerm.items_append {w ts : List Token} {tree : Tree} {e : Ending}
    (h : SpelledTerm w tree e) (hnext : ∀ t ∈ ts.head?, e.takes t.kind = false) :
    items (w ++ ts) = .term tree :: items ts := by
  have hword : ∀ {sign : Option Token} {a x : Token}, Ending.word.takes x.kind = false →
      (Draft.word sign a).extend x = none := by
    intro sign a x hx
    cases hk : x.kind <;> simp_all [Draft.extend, Ending.takes]
  cases h with
  | @literal k t hk hclosed =>
      have hstart : Draft.start t = .complete (.term (.leaf (.literal k) t)) := by
        simp [Draft.start, hk]
      exact items_of_after (w := []) (by rw [hstart]; rfl) fun _ _ => rfl
  | @word w hw =>
      have hstart : Draft.start w = .word none w := by simp [Draft.start, hw]
      exact items_of_after (w := []) (by rw [hstart]; rfl) fun x hx => hword (hnext x hx)
  | @signedLiteral k m t hm hk hclosed =>
      have hstart : Draft.start m = .minus m := by simp [Draft.start, hm]
      refine items_of_after (w := [t])
        (d := .complete (Draft.tagOf (some m) [.leaf (.literal k) t])) ?_ fun _ _ => rfl
      rw [hstart]
      simp [Draft.after, Draft.extend, hk]
  | @signedWord m w hm hw =>
      have hstart : Draft.start m = .minus m := by simp [Draft.start, hm]
      refine items_of_after (w := [w]) (d := .word (some m) w) ?_
        fun x hx => hword (hnext x hx)
      rw [hstart]
      simp [Draft.after, Draft.extend, hw]
  | @tag sign a op vs v e hsign ha hop hv =>
      -- from the comparison on the draft is that of the value, with a sign before it or without
      obtain ⟨d, hd, hstop, hfinish⟩ := hv.exists_draft sign a op
      have hopk : ∃ c, op.kind = .comparison c := by
        cases hk : op.kind <;> simp_all [TokenKind.isComparison]
      obtain ⟨c, hopk⟩ := hopk
      have hitems : ∀ {t : Token} {w : List Token}, (Draft.start t).after w = some d →
          items (t :: w ++ ts)
            = Draft.tagOf sign [.leaf .argument a, .leaf .operator op, v] :: items ts := by
        intro t w h
        rw [items_of_after h fun x hx => hstop x (hnext x hx), hfinish]
      cases sign with
      | none =>
          refine hitems (t := a) (w := op :: vs) ?_
          simp [Draft.start, ha, Draft.after, Draft.extend, hopk, hd]
      | some m =>
          have hm := hsign m rfl
          refine hitems (t := m) (w := a :: op :: vs) ?_
          simp [Draft.start, hm, ha, Draft.after, Draft.extend, hopk, hd]

/-- **A spelled row is read back item by item.** -/
theorem Spells.items_eq {ts : List Token} {is : List Item} (h : Spells ts is) : items ts = is := by
  induction h with
  | nil => rfl
  | mark hi rest ih => rw [items_mark hi, ih]
  | term hw hnext rest ih => rw [hw.items_append hnext, ih]

/-! ## Every faultless row is spelled -/

namespace Draft

/-- What a draft knows about the tokens it was gathered from. -/
def Fits (w : List Token) : Draft → Prop
  | .complete (.term tree) => tree.faultless = true → SpelledTerm w tree .closed
  | .complete i => ∃ t, w = [t] ∧ Item.ofMark? t = some i
  | .minus m => w = [m] ∧ m.kind = .minus
  | .word sign a => w = sign.toList ++ [a] ∧ (∀ m ∈ sign, m.kind = .minus) ∧ a.kind = .word
  | .tag sign a op =>
    w = sign.toList ++ [a, op] ∧ (∀ m ∈ sign, m.kind = .minus) ∧ a.kind = .word ∧
      op.kind.isComparison = true
  | .value sign a op words =>
    w = sign.toList ++ a :: op :: words ∧ (∀ m ∈ sign, m.kind = .minus) ∧ a.kind = .word ∧
      op.kind.isComparison = true ∧ words ≠ [] ∧ ∀ t ∈ words, t.kind = .word ∨ t.kind = .minus
  | .stray ts => ∃ c t rest, ts = t :: rest ∧ t.kind = .comparison c

/-- A literal without problems is closed. -/
theorem isClosed_of_faultless {k : LiteralKind} {t : Token} (hk : t.kind = .literal k)
    (h : (Tree.leaf (.literal k) t).faultless = true) : t.isClosed = true := by
  have hopening := Tree.openingProblem?_eq_none h
  by_contra hopen
  simp only [Token.isClosed, hk] at hopen
  simp [openingProblem?, hopen] at hopening

/-- An error node with a problem of its own is never faultless. -/
theorem not_faultless_error {cs : List Tree} {t : Token} {p : Problem}
    (ht : (Tree.tokensOf cs).head? = some t) (hp : t.kind.problem? = some p) :
    (Tree.node .error cs).faultless ≠ true := by
  intro h
  have hopening := Tree.openingProblem?_eq_none h
  simp [openingProblem?, ht, hp] at hopening

theorem fits_start (t : Token) : (start t).Fits [t] := by
  unfold start
  split
  · next hk => exact ⟨t, rfl, by simp [Item.ofMark?, hk]⟩
  · next hk => exact ⟨t, rfl, by simp [Item.ofMark?, hk]⟩
  · next hk => exact ⟨t, rfl, by simp [Item.ofMark?, hk]⟩
  · next hk => exact ⟨t, rfl, by simp [Item.ofMark?, hk]⟩
  · next k hk => exact fun h => .literal hk (isClosed_of_faultless hk h)
  · next hk =>
      exact fun h => absurd h (not_faultless_error (t := t) (by simp) (by rw [hk]; rfl))
  · next hk => exact ⟨rfl, by simp, hk⟩
  · next hk => exact ⟨rfl, hk⟩
  · next c hk => exact ⟨c, t, [], rfl, hk⟩

theorem fits_extend {d d' : Draft} {w : List Token} {t : Token} (h : d.Fits w)
    (ht : d.extend t = some d') : d'.Fits (w ++ [t]) := by
  cases d with
  | complete i => cases ht
  | minus m =>
      obtain ⟨rfl, hm⟩ := h
      simp only [extend] at ht
      split at ht <;> cases ht
      · next hk => exact ⟨rfl, by simpa using hm, hk⟩
      · next k hk =>
          intro hfault
          exact .signedLiteral hm hk
            (isClosed_of_faultless hk (Tree.faultless_of_mem hfault (by simp)))
  | word sign a =>
      obtain ⟨rfl, hsign, ha⟩ := h
      simp only [extend] at ht
      split at ht <;> cases ht
      next c hk => exact ⟨by simp, hsign, ha, by rw [hk]; rfl⟩
  | tag sign a op =>
      obtain ⟨rfl, hsign, ha, hop⟩ := h
      simp only [extend] at ht
      split at ht <;> cases ht
      · next k hk =>
          intro hfault
          have hclosed := isClosed_of_faultless hk (Tree.faultless_of_mem hfault (by simp))
          simpa using SpelledTerm.tag hsign ha hop (.literal hk hclosed)
      · next c hk =>
          intro hfault
          simpa using SpelledTerm.tag hsign ha hop (.keyword hk)
      · next hk => exact ⟨by simp, hsign, ha, hop, by simp, by simp [hk]⟩
      · next hk => exact ⟨by simp, hsign, ha, hop, by simp, by simp [hk]⟩
  | value sign a op words =>
      obtain ⟨rfl, hsign, ha, hop, hne, hwords⟩ := h
      have hmore : t.kind = .word ∨ t.kind = .minus →
          Draft.Fits (sign.toList ++ a :: op :: words ++ [t]) (value sign a op (words ++ [t])) := by
        intro hk
        refine ⟨by simp, hsign, ha, hop, by simp, ?_⟩
        intro x hx
        rcases List.mem_append.1 hx with hx | hx
        · exact hwords x hx
        · rw [List.mem_singleton.1 hx]
          exact hk
      simp only [extend] at ht
      split at ht <;> cases ht
      · next hk => exact hmore (Or.inl hk)
      · next hk => exact hmore (Or.inr hk)
  | stray ts =>
      -- what follows a stray comparison is gathered, but the comparison stays in front
      obtain ⟨c, x, rest, rfl, hx⟩ := h
      simp only [extend] at ht
      split at ht <;> cases ht
      all_goals exact ⟨c, x, rest ++ [t], rfl, hx⟩

theorem fits_after {d d' : Draft} {w ws : List Token} (h : d.Fits w) (hws : d.after ws = some d') :
    d'.Fits (w ++ ws) := by
  induction ws generalizing d w with
  | nil =>
      cases hws
      simpa using h
  | cons t ts ih =>
      cases ht : d.extend t with
      | none => simp [after, ht] at hws
      | some d₁ =>
          have hrest := ih (fits_extend h ht) (by simpa [after, ht] using hws)
          simpa using hrest

/-- A finished draft is a mark, or a term that is spelled unless it has a problem. -/
theorem finish_cases {d : Draft} {w : List Token} (h : d.Fits w) (next : Option TokenKind) :
    (∃ t i, w = [t] ∧ Item.ofMark? t = some i ∧ d.finish next = i) ∨
      ∃ tree, d.finish next = .term tree ∧ (tree.faultless = true →
        ∃ e, SpelledTerm w tree e ∧ ∀ x : Token, d.extend x = none → e.takes x.kind = false) := by
  -- a word, with or without a sign, goes on with a comparison alone
  have hword : ∀ (sign : Option Token) (a x : Token), (word sign a).extend x = none →
      Ending.word.takes x.kind = false := by
    intro sign a x hx
    cases hk : x.kind <;> simp_all [extend, Ending.takes]
  cases d with
  | complete i =>
      cases i with
      | term tree =>
          refine Or.inr ⟨tree, rfl, fun hfault => ⟨.closed, h hfault, fun _ _ => rfl⟩⟩
      | _ =>
          obtain ⟨t, hw, hi⟩ := h
          exact Or.inl ⟨t, _, hw, hi, rfl⟩
  | minus m =>
      -- a sign alone is an error, whatever stands behind it
      obtain ⟨rfl, hm⟩ := h
      right
      simp only [finish]
      split
      · exact ⟨_, rfl, fun hfault =>
          absurd hfault (not_faultless_error (t := m) (by simp) (by rw [hm]; rfl))⟩
      · refine ⟨_, rfl, fun hfault => ?_⟩
        have hclosing := Tree.closingProblem?_eq_none hfault
        simp [closingProblem?, Tree.leaf, Tree.kind?] at hclosing
  | word sign a =>
      obtain ⟨rfl, hsign, ha⟩ := h
      cases sign with
      | none => exact Or.inr ⟨_, rfl, fun _ => ⟨.word, .word ha, hword none a⟩⟩
      | some m =>
          exact Or.inr ⟨_, rfl, fun _ => ⟨.word, .signedWord (hsign m rfl) ha, hword (some m) a⟩⟩
  | tag sign a op =>
      -- and so is a comparison without a value
      refine Or.inr ⟨_, rfl, fun hfault => ?_⟩
      have hclosing := Tree.closingProblem?_eq_none hfault
      cases sign <;>
        simp [closingProblem?, Tree.leaf, Tree.kind?, NodeKind.isTagValue] at hclosing
  | value sign a op words =>
      obtain ⟨rfl, hsign, ha, hop, hne, hwords⟩ := h
      refine Or.inr ⟨_, rfl, fun _ => ⟨.value, .tag hsign ha hop (.words hne hwords), ?_⟩⟩
      intro x hx
      cases hk : x.kind <;> simp_all [extend, Ending.takes]
  | stray ts =>
      obtain ⟨c, t, rest, rfl, hk⟩ := h
      exact Or.inr ⟨_, rfl, fun hfault =>
        absurd hfault (not_faultless_error (t := t) (by simp) (by rw [hk]; rfl))⟩

end Draft

/-- The items of a row, when its terms are faultless. -/
def TermsFaultless (is : List Item) : Prop :=
  ∀ tree, .term tree ∈ is → tree.faultless = true

/-- **A row whose items are faultless is spelled.** -/
theorem spells_of_faultless {ts : List Token} (h : TermsFaultless (items ts)) :
    Spells ts (items ts) := by
  -- each item leaves a shorter row
  induction hn : ts.length using Nat.strongRecOn generalizing ts with
  | ind n ih =>
      cases ts with
      | nil => exact .nil
      | cons t ts =>
          obtain ⟨ws, d, rest, rfl, hd, hstop, hrun⟩ := Draft.run_eq (Draft.start t) ts
          have hfits := Draft.fits_after (Draft.fits_start t) hd
          rw [items_cons, hrun] at h ⊢
          have hrest : Spells rest (items rest) := by
            refine ih rest.length ?_ (fun tree htree => h tree (List.mem_cons_of_mem _ htree)) rfl
            simp only [← hn, List.length_cons, List.length_append]
            omega
          rcases Draft.finish_cases hfits (rest.head?.map Token.kind) with
            ⟨x, i, hx, hi, hfinish⟩ | ⟨tree, hfinish, hspelled⟩
          · obtain ⟨rfl, rfl⟩ : t = x ∧ ws = [] := by simpa using hx
            rw [hfinish]
            exact .mark hi hrest
          · rw [hfinish] at h ⊢
            obtain ⟨e, hw, hnext⟩ := hspelled (h tree (by simp))
            exact .term hw (fun x hx => hnext x (hstop x hx)) hrest

/-! ## Tokens of a spelled row -/

namespace TokenKind

/-- Whether no term goes on with a token of this kind. -/
def endsTerm : TokenKind → Bool
  | .word | .minus | .comparison _ => false
  | _ => true

end TokenKind

theorem Ending.takes_of_endsTerm {k : TokenKind} (h : k.endsTerm = true) (e : Ending) :
    e.takes k = false := by
  cases e <;> cases k <;> simp_all [TokenKind.endsTerm, Ending.takes]

/-- The kinds of token that terms are made of. -/
def TokenKind.isTermPart : TokenKind → Bool
  | .word | .minus | .comparison _ | .literal _ | .keyword _ => true
  | _ => false

/-- The tokens that terms without errors are made of. -/
inductive TermPart (t : Token) : Prop
  | word (h : t.kind = .word)
  | minus (h : t.kind = .minus)
  | comparison (h : t.kind.isComparison = true)
  | keyword {op : Connective} (h : t.kind = .keyword op)
  | literal {k : LiteralKind} (h : t.kind = .literal k) (hclosed : t.isClosed = true)

theorem SpelledValue.parts {ts : List Token} {v : Tree} {e : Ending} (h : SpelledValue ts v e) :
    ∀ t ∈ ts, TermPart t := by
  intro t ht
  cases h with
  | literal hk hclosed =>
      obtain rfl := List.mem_singleton.1 ht
      exact .literal hk hclosed
  | keyword hk =>
      obtain rfl := List.mem_singleton.1 ht
      exact .keyword hk
  | words hne hts =>
      rcases hts t ht with hk | hk
      · exact .word hk
      · exact .minus hk

theorem SpelledTerm.parts {w : List Token} {tree : Tree} {e : Ending} (h : SpelledTerm w tree e) :
    ∀ t ∈ w, TermPart t := by
  intro t ht
  cases h with
  | literal hk hclosed =>
      obtain rfl := List.mem_singleton.1 ht
      exact .literal hk hclosed
  | word hw =>
      obtain rfl := List.mem_singleton.1 ht
      exact .word hw
  | signedLiteral hm hk hclosed =>
      simp only [List.mem_cons, List.not_mem_nil, or_false] at ht
      rcases ht with rfl | rfl
      · exact .minus hm
      · exact .literal hk hclosed
  | signedWord hm hw =>
      simp only [List.mem_cons, List.not_mem_nil, or_false] at ht
      rcases ht with rfl | rfl
      · exact .minus hm
      · exact .word hw
  | tag hsign ha hop hv =>
      simp only [List.mem_append, Option.mem_toList, List.mem_cons] at ht
      rcases ht with ht | rfl | rfl | ht
      · exact .minus (hsign t ht)
      · exact .word ha
      · exact .comparison hop
      · exact hv.parts t ht

theorem TermPart.isTermPart {t : Token} (h : TermPart t) : t.kind.isTermPart = true := by
  cases h with
  | word h => rw [h]; rfl
  | minus h => rw [h]; rfl
  | comparison h => cases hk : t.kind <;> simp_all [TokenKind.isComparison, TokenKind.isTermPart]
  | keyword h => rw [h]; rfl
  | literal h hclosed => rw [h]; rfl

theorem TermPart.kind_ne_blank {t : Token} (h : TermPart t) : t.kind ≠ .blank := by
  intro hblank
  have hpart := h.isTermPart
  rw [hblank] at hpart
  cases hpart

theorem SpelledValue.ne_nil {ts : List Token} {v : Tree} {e : Ending}
    (h : SpelledValue ts v e) : ts ≠ [] := by
  cases h with
  | words hne hts => exact hne
  | _ => simp

theorem SpelledTerm.ne_nil {w : List Token} {tree : Tree} {e : Ending}
    (h : SpelledTerm w tree e) : w ≠ [] := by
  cases h <;> simp

/-- No term begins with a blank, a keyword or a parenthesis. -/
theorem SpelledTerm.ofMark?_head {w : List Token} {tree : Tree} {e : Ending}
    (h : SpelledTerm w tree e) : ∃ t ws, w = t :: ws ∧ Item.ofMark? t = none := by
  cases h with
  | literal hk hclosed => exact ⟨_, _, rfl, by simp [Item.ofMark?, hk]⟩
  | word hw => exact ⟨_, _, rfl, by simp [Item.ofMark?, hw]⟩
  | signedLiteral hm hk hclosed => exact ⟨_, _, rfl, by simp [Item.ofMark?, hm]⟩
  | signedWord hm hw => exact ⟨_, _, rfl, by simp [Item.ofMark?, hm]⟩
  | @tag sign a op ts v e hsign ha hop hv =>
      cases sign with
      | none => exact ⟨_, _, rfl, by simp [Item.ofMark?, ha]⟩
      | some m => exact ⟨m, _, rfl, by simp [Item.ofMark?, hsign m rfl]⟩

namespace Spells

variable {ts us : List Token} {is js : List Item}

/-- What follows a mark is spelled. -/
theorem tail_of_mark {t : Token} {i : Item} (h : Spells (t :: ts) is)
    (hi : Item.ofMark? t = some i) : Spells ts (items ts) := by
  generalize hrow : t :: ts = row at h
  cases h with
  | nil => cases hrow
  | mark hi' rest =>
      cases hrow
      rwa [rest.items_eq]
  | term hw hnext rest =>
      obtain ⟨x, ws, rfl, hx⟩ := hw.ofMark?_head
      cases hrow
      rw [hi] at hx
      cases hx

/-- Two spelled rows make one, unless a term at the end of the first goes on in the second. -/
theorem append (ht : Spells ts is) (hu : Spells us js)
    (h : ∀ a ∈ ts.getLast?, ∀ b ∈ us.head?,
      a.kind.isTermPart = false ∨ b.kind.endsTerm = true) :
    Spells (ts ++ us) (is ++ js) := by
  induction ht with
  | nil => exact hu
  | @mark t i ts is hi rest ih =>
      apply Spells.mark hi
      cases ts with
      | nil =>
          obtain rfl : [] = is := rest.items_eq
          exact hu
      | cons x xs => exact ih (by simpa using h)
  | @term w ts tree e is hw hnext rest ih =>
      rw [List.append_assoc]
      cases ts with
      | nil =>
          obtain rfl : [] = is := rest.items_eq
          refine .term hw ?_ hu
          intro b hb
          obtain ⟨a, ha⟩ := List.getLast?_isSome.2 hw.ne_nil |> Option.isSome_iff_exists.1
          rcases h a (by simpa using ha) b hb with hpart | hends
          · rw [(hw.parts a (List.mem_of_getLast? ha)).isTermPart] at hpart
            cases hpart
          · exact e.takes_of_endsTerm hends
      | cons x xs =>
          refine .term hw (by simpa using hnext) (ih ?_)
          intro a ha
          refine h a ?_
          rw [List.getLast?_append, Option.mem_def.1 ha]
          rfl

/-- A spelled row can be cut between any two items. -/
theorem split {is js : List Item} {ts : List Token} (h : Spells ts (is ++ js)) :
    ∃ us vs, ts = us ++ vs ∧ Spells us is ∧ Spells vs js := by
  induction is generalizing ts with
  | nil => exact ⟨[], ts, rfl, .nil, h⟩
  | cons i is ih =>
      cases h with
      | mark hi rest =>
          obtain ⟨us, vs, rfl, hus, hvs⟩ := ih rest
          exact ⟨_ :: us, vs, rfl, .mark hi hus, hvs⟩
      | term hw hnext rest =>
          obtain ⟨us, vs, rfl, hus, hvs⟩ := ih rest
          refine ⟨_ ++ us, vs, (List.append_assoc _ _ _).symm, .term hw ?_ hus, hvs⟩
          intro t ht
          exact hnext t (by cases us <;> simp_all)

end Spells

/-! ## Literals of a spelled row -/

theorem Token.isClosed_of_not_literal {t : Token} (h : ∀ k, t.kind ≠ .literal k) :
    t.isClosed = true := by
  unfold isClosed
  split
  · next k hk => exact absurd hk (h k)
  · rfl

/-- A mark is no literal. -/
theorem Token.isClosed_of_ofMark? {t : Token} {i : Item} (hi : Item.ofMark? t = some i) :
    t.isClosed = true :=
  isClosed_of_not_literal fun k hk => by simp [Item.ofMark?, hk] at hi

theorem TermPart.isClosed {t : Token} (h : TermPart t) : t.isClosed = true := by
  cases h with
  | literal h hclosed => exact hclosed
  | word h => exact Token.isClosed_of_not_literal (by simp [h])
  | minus h => exact Token.isClosed_of_not_literal (by simp [h])
  | keyword h => exact Token.isClosed_of_not_literal (by simp [h])
  | comparison h =>
      refine Token.isClosed_of_not_literal fun k hk => ?_
      rw [hk] at h
      cases h

/-- Every literal of a spelled row is closed. -/
theorem Spells.isClosed {ts : List Token} {is : List Item} (h : Spells ts is) :
    ∀ t ∈ ts, t.isClosed = true := by
  induction h with
  | nil => simp
  | @mark t i ts is hi rest ih =>
      exact List.forall_mem_cons.2 ⟨Token.isClosed_of_ofMark? hi, ih⟩
  | term hw hnext rest ih =>
      intro t ht
      rcases List.mem_append.1 ht with ht | ht
      · exact (hw.parts t ht).isClosed
      · exact ih t ht

/-- The spelled rows of a text are read back from their own text. -/
theorem Spells.lexed_of_part {t : Text} {ts : List Token} {is : List Item} (h : Spells ts is)
    (hts : ts <:+: tokenize t) : Lexed ts :=
  ⟨fun _ hx => isLexeme_of_mem_tokenize (hts.subset hx), h.isClosed,
    (touching_tokenize t).of_part hts⟩

/-! ## Comparisons hold their values -/

/-- Whether a row does not begin with a comparison. -/
def Settled (ts : List Token) : Prop :=
  ∀ t ∈ ts.head?, t.kind.isComparison = false

theorem settled_cons {t : Token} (h : t.kind.isComparison = false) (ts : List Token) :
    Settled (t :: ts) := by
  simpa [Settled] using h

/-- Whether every comparison has a token after it that is not blank. -/
def Held : List Token → Prop
  | [] => True
  | t :: ts =>
    (t.kind.isComparison = true → ∃ u us, ts = u :: us ∧ u.kind ≠ .blank) ∧ Held ts

theorem Held.append {ts us : List Token} (ht : Held ts) (hu : Held us) : Held (ts ++ us) := by
  induction ts with
  | nil => exact hu
  | cons t ts ih =>
      obtain ⟨hheld, hrest⟩ := ht
      refine ⟨?_, ih hrest⟩
      intro hcomp
      obtain ⟨u, vs, rfl, hblank⟩ := hheld hcomp
      exact ⟨u, vs ++ us, rfl, hblank⟩

theorem held_of_forall {ts : List Token} (h : ∀ t ∈ ts, t.kind.isComparison = false) :
    Held ts := by
  induction ts with
  | nil => trivial
  | cons t ts ih =>
      refine ⟨?_, ih fun x hx => h x (by simp [hx])⟩
      simp [h t (by simp)]

theorem SpelledValue.isComparison_eq_false {ts : List Token} {v : Tree} {e : Ending}
    (h : SpelledValue ts v e) : ∀ t ∈ ts, t.kind.isComparison = false := by
  intro t ht
  cases h with
  | literal hk hclosed =>
      rw [List.mem_singleton.1 ht, hk]
      rfl
  | keyword hk =>
      rw [List.mem_singleton.1 ht, hk]
      rfl
  | words hne hts =>
      rcases hts t ht with hk | hk <;> rw [hk] <;> rfl

theorem SpelledTerm.held {w : List Token} {tree : Tree} {e : Ending} (h : SpelledTerm w tree e) :
    Held w := by
  cases h with
  | literal hk hclosed => exact held_of_forall (by simp [hk, TokenKind.isComparison])
  | word hw => exact held_of_forall (by simp [hw, TokenKind.isComparison])
  | signedLiteral hm hk hclosed => exact held_of_forall (by simp [hm, hk, TokenKind.isComparison])
  | signedWord hm hw => exact held_of_forall (by simp [hm, hw, TokenKind.isComparison])
  | @tag sign a op ts v e hsign ha hop hv =>
      have hsigns : Held sign.toList :=
        held_of_forall fun m hm => by rw [hsign m (by simpa using hm)]; rfl
      refine hsigns.append ⟨by simp [ha, TokenKind.isComparison], ?_, ?_⟩
      · intro _
        obtain ⟨u, us, rfl⟩ := List.exists_cons_of_ne_nil hv.ne_nil
        exact ⟨u, us, rfl, (hv.parts u (by simp)).kind_ne_blank⟩
      · exact held_of_forall hv.isComparison_eq_false

theorem Spells.held {ts : List Token} {is : List Item} (h : Spells ts is) : Held ts := by
  induction h with
  | nil => trivial
  | @mark t i ts is hi rest ih =>
      refine ⟨fun hcomp => ?_, ih⟩
      cases hk : t.kind <;> simp_all [Item.ofMark?, TokenKind.isComparison]
  | term hw hnext rest ih => exact hw.held.append ih

end CardQuery
