import CardQuery.Proofs.Parse.Region

/-!
# Building spelled rows

A `Phrase` is a spelled row of tokens that are read back from their text, with no blank at its
ends. Phrases can be put in parentheses and joined by a space, so a text that is put together from
phrases is read as the items that they spell.

Main statements: `Phrase.parens`, `Phrase.join`, and that the text of a phrase is read as the
expression that its items are (`Phrase.reads`).
-/

set_option autoImplicit false

namespace CardQuery

/-! ## Tokens that the texts are put together from -/

namespace Token

/-- One space. -/
def space : Token := ⟨.blank, [' ']⟩

/-- The end of a line. -/
def newline : Token := ⟨.blank, ['\n']⟩

/-- An opening parenthesis. -/
def leftParen : Token := ⟨.leftParen, ['(']⟩

/-- A closing parenthesis. -/
def rightParen : Token := ⟨.rightParen, [')']⟩

/-- A colon. -/
def colon : Token := ⟨.comparison .colon, [':']⟩

/-- The keyword `or`. -/
def or : Token := ⟨.keyword .or, ['o', 'r']⟩

/-- The argument that a bare word asks for. -/
def name : Token := ⟨.word, ['n', 'a', 'm', 'e']⟩

end Token

/-- A token is a row of its own. -/
theorem lexed_singleton {t : Token} (h : t.IsLexeme) (hclosed : t.isClosed = true) : Lexed [t] :=
  ⟨by simpa using h, by simpa using hclosed, List.IsChain.singleton t⟩

namespace TokenKind

theorem canPrecede_blank {k : TokenKind} (h : k ≠ .blank) : k.canPrecede .blank = true := by
  cases k with
  | blank => exact absurd rfl h
  | comparison c => cases c <;> rfl
  | _ => rfl

theorem blank_canPrecede {k : TokenKind} (h : k ≠ .blank) :
    TokenKind.blank.canPrecede k = true := by
  simp [canPrecede, h]

theorem canPrecede_rightParen (k : TokenKind) : k.canPrecede .rightParen = true := by
  cases k with
  | comparison c => cases c <;> rfl
  | _ => rfl

end TokenKind

/-! ## Phrases -/

/-- A spelled row that is read back from its text and has no blank at its ends. -/
structure Phrase (ts : List Token) (is : List Item) : Prop where
  lexed : Lexed ts
  spells : Spells ts is
  ne_nil : ts ≠ []
  first : ∀ t ∈ ts.head?, t.kind ≠ .blank
  last : ∀ t ∈ ts.getLast?, t.kind ≠ .blank

namespace Phrase

variable {ts us : List Token} {is js : List Item}

/-- A row whose only token is a mark is a phrase. -/
theorem mark {t : Token} {i : Item} (hlex : t.IsLexeme) (hi : Item.ofMark? t = some i)
    (hblank : t.kind ≠ .blank) : Phrase [t] [i] := by
  have hclosed : t.isClosed = true := Token.isClosed_of_ofMark? hi
  exact ⟨lexed_singleton hlex hclosed, .mark hi .nil, by simp, by simpa using hblank,
    by simpa using hblank⟩

/-- A term is a phrase. -/
theorem term {w : List Token} {tree : Tree} {e : Ending} (hw : SpelledTerm w tree e)
    (hlexed : Lexed w) : Phrase w [.term tree] := by
  have hblank : ∀ t ∈ w, t.kind ≠ .blank := fun t ht => (hw.parts t ht).kind_ne_blank
  refine ⟨hlexed, ?_, hw.ne_nil, fun t ht => hblank t (List.mem_of_head? ht),
    fun t ht => hblank t (List.mem_of_getLast? ht)⟩
  simpa using Spells.term hw (by simp) Spells.nil

/-- Phrases that can stand side by side make a phrase. -/
theorem append (h : Phrase ts is) (h' : Phrase us js)
    (hmeet : ∀ a ∈ ts.getLast?, ∀ b ∈ us.head?, a.kind.canPrecede b.kind = true ∧
      (a.kind.isTermPart = false ∨ b.kind.endsTerm = true)) : Phrase (ts ++ us) (is ++ js) := by
  obtain ⟨t, ts, rfl⟩ := List.exists_cons_of_ne_nil h.ne_nil
  obtain ⟨u, us, rfl⟩ := List.exists_cons_of_ne_nil h'.ne_nil
  refine ⟨h.lexed.append h'.lexed fun a ha b hb => (hmeet a ha b hb).1,
    h.spells.append h'.spells fun a ha b hb => (hmeet a ha b hb).2, by simp, ?_, ?_⟩
  · simpa using h.first
  · intro x hx
    rw [List.getLast?_append_of_ne_nil _ (by simp)] at hx
    exact h'.last x hx

/-- A phrase in parentheses is a phrase. -/
theorem parens (h : Phrase ts is) :
    Phrase (.leftParen :: ts ++ [.rightParen])
      (.opening .leftParen :: is ++ [.closing .rightParen]) := by
  have hopen : Phrase [Token.leftParen] [.opening .leftParen] :=
    .mark (by decide) rfl (by decide)
  have hclose : Phrase [Token.rightParen] [.closing .rightParen] :=
    .mark (by decide) rfl (by decide)
  refine (hopen.append h ?_).append hclose ?_
  · intro a ha b hb
    obtain rfl : Token.leftParen = a := by simpa using ha
    exact ⟨rfl, Or.inl rfl⟩
  · intro a ha b hb
    obtain rfl : Token.rightParen = b := by simpa using hb
    exact ⟨TokenKind.canPrecede_rightParen a.kind, Or.inr rfl⟩

/-- Two phrases with a blank between them are a phrase. -/
theorem join (h : Phrase ts is) (h' : Phrase us js) :
    Phrase (ts ++ .space :: us) (is ++ .blank .space :: js) := by
  obtain ⟨t, ts, rfl⟩ := List.exists_cons_of_ne_nil h.ne_nil
  obtain ⟨u, us, rfl⟩ := List.exists_cons_of_ne_nil h'.ne_nil
  have hspace : Lexed [Token.space] := lexed_singleton (by decide) rfl
  have hu : u.kind ≠ .blank := h'.first u rfl
  have hrest : Lexed (.space :: u :: us) :=
    hspace.append h'.lexed (by simpa [Token.space] using TokenKind.blank_canPrecede hu)
  refine ⟨h.lexed.append hrest ?_, h.spells.append (.mark rfl h'.spells) ?_, by simp, ?_, ?_⟩
  · intro a ha b hb
    obtain rfl : Token.space = b := by simpa using hb
    exact TokenKind.canPrecede_blank (h.last a ha)
  · intro a ha b hb
    obtain rfl : Token.space = b := by simpa using hb
    exact Or.inr rfl
  · simpa using h.first
  · intro x hx
    rw [List.getLast?_append_of_ne_nil _ (by simp),
      show Token.space :: u :: us = [.space] ++ u :: us from rfl,
      List.getLast?_append_of_ne_nil _ (by simp)] at hx
    exact h'.last x hx

theorem reads (h : Phrase ts is) {t : Tree} (ht : Shape (.row .or) t)
    (hyield : solid is = t.yield) : Reads ts (some t) :=
  ⟨is, h.spells, ht, hyield⟩

theorem tokensText_ne_nil (h : Phrase ts is) : tokensText ts ≠ [] := by
  obtain ⟨t, ts, rfl⟩ := List.exists_cons_of_ne_nil h.ne_nil
  exact h.lexed.tokensText_ne_nil

/-- The text of a phrase is read back as its tokens. -/
theorem tokenize_tokensText (h : Phrase ts is) : tokenize (tokensText ts) = ts :=
  h.lexed.tokenize_tokensText

end Phrase

/-! ## Blanks around a region -/

theorem Reads.cons_blank {ts : List Token} {t : Option Tree} {b : Token} (h : Reads ts t)
    (hb : b.kind = .blank) : Reads (b :: ts) t := by
  cases t with
  | none =>
      obtain ⟨is, hspells, hsolid⟩ := h
      exact ⟨.blank b :: is, .mark (Item.ofMark?_blank hb) hspells, hsolid⟩
  | some t =>
      obtain ⟨is, hspells, hshape, hsolid⟩ := h
      exact ⟨.blank b :: is, .mark (Item.ofMark?_blank hb) hspells, hshape, hsolid⟩

theorem Reads.concat_blank {ts : List Token} {t : Option Tree} {b : Token} (h : Reads ts t)
    (hb : b.kind = .blank) : Reads (ts ++ [b]) t := by
  have happend : ∀ {is : List Item}, Spells ts is → Spells (ts ++ [b]) (is ++ [.blank b]) := by
    intro is hspells
    refine hspells.append (.mark (Item.ofMark?_blank hb) .nil) ?_
    intro x _ y hy
    obtain rfl : b = y := by simpa using hy
    exact Or.inr (by rw [hb]; rfl)
  cases t with
  | none =>
      obtain ⟨is, hspells, hsolid⟩ := h
      exact ⟨_, happend hspells, by rw [solid_append, hsolid]; rfl⟩
  | some t =>
      obtain ⟨is, hspells, hshape, hsolid⟩ := h
      exact ⟨_, happend hspells, hshape, by rw [solid_append, hsolid]; simp⟩

end CardQuery
