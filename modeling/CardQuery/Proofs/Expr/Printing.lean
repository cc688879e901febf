import CardQuery.Expr.Lowering
import CardQuery.Expr.Printer
import CardQuery.Proofs.Expr.Equivalence
import CardQuery.Proofs.Parse.Phrase

/-!
# Reading a printed expression

The tags of an expression that was read from a text can be printed and read back, also those that
a bare word or literal stands for. A printed expression is put together from such tags, spaces,
the keyword `or` and parentheses. It is read as a row that leans to the left, however the
expression was nested, so what is read is alike and not the same.

Main statement: a printed expression is a phrase that is read as an expression alike, which is
printed in the same way (`Expr.Printable.exists_reading`).
-/

set_option autoImplicit false

namespace CardQuery

/-! ## Tags -/

/-- Whether the text of a tag is that of a spelled term with this tag. -/
def QueryTag.Printable (q : QueryTag) : Prop :=
  ∃ w tree e, SpelledTerm w tree e ∧ Lexed w ∧ QueryTag.ofTerm? tree = some q ∧
    tokensText w = q.text

/-- Whether every tag of an expression can be printed. -/
def Expr.Printable (e : Expr) : Prop :=
  ∀ q ∈ e.tags, q.Printable

theorem SpelledValue.text_eq {ts : List Token} {v : Tree} {e : Ending} (h : SpelledValue ts v e) :
    v.text = tokensText ts := by
  cases h with
  | words hne hts => simp [Tree.text]
  | _ => simp [Tree.text]

theorem ofTerm?_tag {sign : Option Token} {a op : Token} {ts : List Token} {v : Tree} {e : Ending}
    (hv : SpelledValue ts v e) :
    QueryTag.ofTerm? (.node .tag (sign.toList.map (Tree.leaf .sign)
      ++ [.leaf .argument a, .leaf .operator op, v]))
      = some ⟨sign.map Token.text, a.text, op.text, tokensText ts⟩ := by
  obtain ⟨k, hvk, hk⟩ := hv.kind?
  have hsign : k ≠ .sign := by
    rintro rfl
    cases hk
  have hargument : NodeKind.isTagValue .argument = false := rfl
  have hoperator : NodeKind.isTagValue .operator = false := rfl
  have hminus : NodeKind.isTagValue .sign = false := rfl
  cases sign <;>
    simp [QueryTag.ofTerm?, Tree.sign?, Tree.argument?, Tree.operator?, Tree.value?, Tree.child?,
      Tree.children, Tree.isKind, Tree.leaf, Tree.text, hargument, hoperator, hminus, hvk, hk,
      hsign, ← hv.text_eq]

/-- A tag whose parts are all there is printed as it is spelled. -/
theorem printable_tag {sign : Option Token} {a op : Token} {ts : List Token} {v : Tree}
    {e : Ending} (hsign : ∀ m ∈ sign, m.kind = .minus) (ha : a.kind = .word)
    (hop : op.kind.isComparison = true) (hv : SpelledValue ts v e)
    (hlexed : Lexed (sign.toList ++ a :: op :: ts)) :
    QueryTag.Printable ⟨sign.map Token.text, a.text, op.text, tokensText ts⟩ := by
  refine ⟨_, _, e, .tag hsign ha hop hv, hlexed, ofTerm?_tag hv, ?_⟩
  cases sign <;> simp [QueryTag.text]

/-- What stands alone is printed with the argument that it asks for. -/
theorem printable_ofName {s : Option Token} {t : Token} {v : Tree} {e : Ending}
    (hsign : ∀ m ∈ s, m.kind = .minus) (hv : SpelledValue [t] v e)
    (hlexed : Lexed (s.toList ++ [t])) :
    (QueryTag.ofName (s.map Token.text) t.text).Printable := by
  have ht : Lexed [t] := hlexed.of_part (List.suffix_append _ _).isInfix
  have hm : Lexed s.toList := hlexed.of_part (List.prefix_append _ _).isInfix
  have hcolon : Lexed [Token.colon, t] :=
    (lexed_singleton (t := .colon) (by decide) rfl).append ht fun a ha b hb => by
      obtain rfl : Token.colon = a := by simpa using ha
      rfl
  have hname : Lexed [Token.name, Token.colon, t] :=
    (lexed_singleton (t := .name) (by decide) rfl).append hcolon (by
      intro a ha b hb
      obtain rfl : Token.name = a := by simpa using ha
      obtain rfl : Token.colon = b := by simpa using hb
      rfl)
  have hall : Lexed (s.toList ++ Token.name :: Token.colon :: [t]) := by
    refine hm.append hname fun a ha b hb => ?_
    have hk : a.kind = .minus := hsign a (by simpa using List.mem_of_getLast? ha)
    rw [hk]
    rfl
  have hprintable := printable_tag hsign rfl rfl hv hall
  rw [tokensText_cons, tokensText_nil, List.append_nil] at hprintable
  exact hprintable

/-- A spelled term has a tag that can be printed. -/
theorem SpelledTerm.printable {w : List Token} {tree : Tree} {e : Ending}
    (h : SpelledTerm w tree e) (hlexed : Lexed w) :
    ∃ q, tree.lower = some (.tag q) ∧ q.Printable := by
  cases h with
  | @literal k t hk hclosed =>
      refine ⟨.ofName none t.text, ?_, printable_ofName (s := none) (by simp)
        (.literal hk hclosed) hlexed⟩
      simp [Tree.leaf, Tree.lower, QueryTag.ofTerm?, Tree.text]
  | @word t hk =>
      refine ⟨.ofName none t.text, ?_, printable_ofName (s := none) (by simp)
        (.words (by simp) (by simp [hk])) hlexed⟩
      simp [Tree.leaf, Tree.lower, QueryTag.ofTerm?, Tree.text]
  | @signedLiteral k m t hm hk hclosed =>
      refine ⟨.ofName (some m.text) t.text, ?_, printable_ofName (s := some m)
        (by simpa using hm) (.literal hk hclosed) hlexed⟩
      simp [Tree.leaf, Tree.lower, QueryTag.ofTerm?, Tree.text, Tree.sign?, Tree.argument?,
        Tree.value?, Tree.child?, Tree.children, Tree.isKind, NodeKind.isTagValue]
  | @signedWord m t hm hk =>
      refine ⟨.ofName (some m.text) t.text, ?_, printable_ofName (s := some m)
        (by simpa using hm) (.words (by simp) (by simp [hk])) hlexed⟩
      simp [Tree.leaf, Tree.lower, QueryTag.ofTerm?, Tree.text, Tree.sign?, Tree.argument?,
        Tree.operator?, Tree.child?, Tree.children, Tree.isKind]
  | @tag sign a op ts v e hsign ha hop hv =>
      refine ⟨_, ?_, printable_tag hsign ha hop hv hlexed⟩
      rw [Tree.lower, ofTerm?_tag hv]
      rfl

/-! ## The tags of what was read -/

/-- Whether every term is spelled by tokens that are read back. -/
def TermsLexed (is : List Item) : Prop :=
  ∀ tree, .term tree ∈ is → ∃ w e, SpelledTerm w tree e ∧ Lexed w

theorem Spells.termsLexed {ts : List Token} {is : List Item} (h : Spells ts is)
    (hlexed : Lexed ts) : TermsLexed is := by
  intro tree htree
  obtain ⟨w, e, hpart, hw⟩ := h.exists_part_of_mem htree
  exact ⟨w, e, hw, hlexed.of_part hpart⟩

theorem TermsLexed.of_append {is js : List Item} (h : TermsLexed (is ++ js)) :
    TermsLexed is ∧ TermsLexed js :=
  ⟨fun tree htree => h tree (List.mem_append_left js htree),
    fun tree htree => h tree (List.mem_append_right is htree)⟩

namespace Shape

/-- The expression of two operands, whatever stands between them. -/
theorem lower_join {op : Connective} {kw : Option Token} {l r : Tree} {lvl lvl' : Level}
    (hl : Shape lvl l) (hr : Shape lvl' r) :
    (Tree.node (.binary op) (l :: (kw.toList.map .token ++ [r]))).lower
      = Expr.combine? op l.lower r.lower := by
  have hle := hl.isExpression
  have hre := hr.isExpression
  cases kw <;> simp [Tree.lower, Tree.lowerEach, hle, hre]

theorem lower_clause {o c : Token} {t : Tree} {lvl : Level} (ht : Shape lvl t) :
    (Tree.node .clause [.token o, t, .token c]).lower = t.lower.map .clause := by
  have hte := ht.isExpression
  cases hlower : t.lower <;>
    simp [Tree.lower, Tree.lowerEach, hte, hlower, Expr.all?, Expr.chain]

theorem lower_empty (o c : Token) : (Tree.node .clause [.token o, .token c]).lower = none := by
  simp [Tree.lower, Tree.lowerEach, Expr.all?]

/-- The tags of an expression that was read can be printed. -/
theorem printable {lvl : Level} {t : Tree} (h : Shape lvl t) (hterms : TermsLexed t.yield)
    {e : Expr} (he : t.lower = some e) : e.Printable := by
  induction h generalizing e with
  | @simple _ tree _ h =>
      rw [h.yield_eq] at hterms
      obtain ⟨w, e', hw, hlexed⟩ := hterms tree (by simp)
      obtain ⟨q, hq, hprintable⟩ := hw.printable hlexed
      obtain rfl : Expr.tag q = e := Option.some.inj (hq.symm.trans he)
      simpa [Expr.Printable, Expr.tags] using hprintable
  | @empty o c ho hc => simp [lower_empty] at he
  | @clause o c t ho hc ht ih =>
      rw [lower_clause ht] at he
      obtain ⟨content, hcontent, rfl⟩ := Option.map_eq_some_iff.1 he
      have hinner : TermsLexed t.yield := fun tree htree => hterms tree (by simp [htree])
      exact fun q hq => ih hinner hcontent q hq
  | @join op kw l r hl hkw hr ihl ihr =>
      rw [Tree.yield_binary, Tree.yieldEach_cons, Tree.yieldEach_append, Tree.yieldEach_cons,
        Tree.yieldEach_nil, List.append_nil] at hterms
      have hleft := hterms.of_append.1
      have hright := hterms.of_append.2.of_append.2
      rw [lower_join hl hr] at he
      cases hll : l.lower with
      | none =>
          rw [hll] at he
          exact ihr hright he
      | some a =>
          cases hrr : r.lower with
          | none =>
              obtain rfl : a = e := by simpa [Expr.combine?, hll, hrr] using he
              exact ihl hleft hll
          | some b =>
              obtain rfl : Expr.binary op a b = e := by
                simpa [Expr.combine?, hll, hrr] using he
              intro q hq
              rcases List.mem_append.1 hq with hq | hq
              · exact ihl hleft hll q hq
              · exact ihr hright hrr q hq
  | ofTerm h ih => exact ih hterms he
  | ofAnd h ih => exact ih hterms he

end Shape

/-- The tags of what a region asks can be printed. -/
theorem Reads.printable {ts : List Token} {t : Option Tree} (h : Reads ts t) (hlexed : Lexed ts)
    {e : Expr} (he : CardQuery.meaning ts = some e) : e.Printable := by
  rw [h.meaning] at he
  cases t with
  | none => cases he
  | some t =>
      obtain ⟨is, hspells, hshape, hsolid⟩ := h
      refine hshape.printable ?_ he
      rw [← hsolid]
      intro tree htree
      exact hspells.termsLexed hlexed tree (List.mem_of_mem_filter htree)

/-! ## Rows that ask the same -/

/-- Whether a row is read without errors, as an expression with the normal form of the given
one. -/
def ReadsLike (ts : List Token) (o : Option Expr) : Prop :=
  ∃ t, Reads ts t ∧ (t.bind Tree.lower).map Expr.normalized = o.map Expr.normalized

namespace ReadsLike

variable {ts : List Token} {o : Option Expr}

theorem map_meaning (h : ReadsLike ts o) :
    (meaning ts).map Expr.normalized = o.map Expr.normalized := by
  obtain ⟨t, ht, hlike⟩ := h
  rw [ht.meaning, hlike]

theorem held (h : ReadsLike ts o) : Held ts := by
  obtain ⟨t, ht, -⟩ := h
  exact ht.spells.held

theorem faultless (h : ReadsLike ts o) : Tree.faultlessEach (regionTrees ts) = true := by
  obtain ⟨t, ht, -⟩ := h
  exact faultlessEach_regionTrees_iff.2 ⟨t, ht⟩

theorem cons_blank {b : Token} (h : ReadsLike ts o) (hb : b.kind = .blank) :
    ReadsLike (b :: ts) o := by
  obtain ⟨t, ht, hlike⟩ := h
  exact ⟨t, ht.cons_blank hb, hlike⟩

theorem concat_blank {b : Token} (h : ReadsLike ts o) (hb : b.kind = .blank) :
    ReadsLike (ts ++ [b]) o := by
  obtain ⟨t, ht, hlike⟩ := h
  exact ⟨t, ht.concat_blank hb, hlike⟩

theorem nil : ReadsLike [] none :=
  ⟨none, ⟨[], .nil, rfl⟩, rfl⟩

/-- Blanks around a row do not change what it asks. -/
theorem meaning_cons_blank {b : Token} (h : ReadsLike ts o) (hb : b.kind = .blank) :
    meaning (b :: ts) = meaning ts := by
  obtain ⟨t, ht, -⟩ := h
  rw [(ht.cons_blank hb).meaning, ht.meaning]

theorem meaning_concat_blank {b : Token} (h : ReadsLike ts o) (hb : b.kind = .blank) :
    meaning (ts ++ [b]) = meaning ts := by
  obtain ⟨t, ht, -⟩ := h
  rw [(ht.concat_blank hb).meaning, ht.meaning]

end ReadsLike

/-- Whether what a row asks is printed as the given expression is. -/
def PrintsLike (ts : List Token) (o : Option Expr) : Prop :=
  (meaning ts).map Expr.text = o.map Expr.text

/-! ## Separators -/

/-- The keyword that is printed between operands. -/
def printedKeyword : Connective → Option Token
  | .and => none
  | .or => some .or

/-- The tokens between two operands. -/
def separatorTokens (op : Connective) : List Token :=
  (printedKeyword op).elim [.space] fun kw => [.space, kw, .space]

/-- The items between two operands. -/
def separatorItems : Connective → List Item
  | .and => [.blank .space]
  | .or => [.blank .space, .keyword .or .or, .blank .space]

theorem tokensText_separatorTokens (op : Connective) :
    tokensText (separatorTokens op) = Expr.separator op := by
  cases op <;> rfl

theorem solid_separatorItems (op : Connective) :
    solid (separatorItems op) = Tree.yieldEach ((printedKeyword op).toList.map .token) := by
  cases op <;> simp [separatorItems, printedKeyword, solid, Item.isBlank, Token.or, Item.ofMark?]

theorem joins_printedKeyword (op : Connective) : Joins op (printedKeyword op) := by
  cases op <;> exact ⟨by simp [printedKeyword, Token.or], by simp [printedKeyword]⟩

theorem Phrase.separate {ts us : List Token} {is js : List Item} (h : Phrase ts is)
    (h' : Phrase us js) (op : Connective) :
    Phrase (ts ++ separatorTokens op ++ us) (is ++ separatorItems op ++ js) := by
  have hor : Phrase [Token.or] [.keyword .or .or] := .mark (by decide) rfl (by decide)
  cases op with
  | and => simpa [separatorTokens, printedKeyword, separatorItems] using h.join h'
  | or => simpa [separatorTokens, printedKeyword, separatorItems] using h.join (hor.join h')

/-! ## Expressions -/

namespace Expr

/-- The text of an operand. -/
def operandText (op : Connective) (e : Expr) : Text :=
  if needsParens op e then inParens e.text else e.text

theorem operandText_binary (op : Connective) (l r : Expr) :
    operandText op (.binary op l r) = operandText op l ++ separator op ++ operandText op r := by
  simp [operandText, needsParens, text]

/-- What an operand of `op` is read back as: it is alike, and is printed as the operand is. -/
structure Reread (op : Connective) (y e : Expr) : Prop where
  alike : Alike y e
  bare : needsParens op y = false
  text_eq : y.text = operandText op e

namespace Reread

variable {op : Connective} {x y z a b c e : Expr}

theorem operandText_eq (h : Reread op y e) : operandText op y = operandText op e := by
  rw [operandText, h.bare, ← h.text_eq]
  rfl

/-- What is read after an operand is read after what that operand was read as. -/
theorem of_left (hx : Reread op x a) (h : Reread op z (.binary op x e)) :
    Reread op z (.binary op a e) := by
  refine ⟨h.alike.trans (hx.alike.binary (Alike.refl e)), h.bare, ?_⟩
  rw [h.text_eq, operandText_binary, operandText_binary, hx.operandText_eq]

/-- The text of a row does not show how the row is nested. -/
theorem assoc (h : Reread op z (.binary op (.binary op a b) c)) :
    Reread op z (.binary op a (.binary op b c)) := by
  refine ⟨h.alike.trans (Alike.assoc op a b c), h.bare, ?_⟩
  rw [h.text_eq]
  simp [operandText_binary]

/-- An operand behind another. -/
theorem join (x : Expr) (h : Reread op y e) :
    Reread op (.binary op x y) (.binary op x e) := by
  refine ⟨(Alike.refl x).binary h.alike, by simp [needsParens], ?_⟩
  rw [operandText_binary, ← h.operandText_eq]
  rfl

end Reread

/-- What an operand of `op` is read as: alone it begins a row, and after a row it extends it. -/
structure Operand (op : Connective) (e : Expr) (is : List Item) : Prop where
  begins : ∃ t y, Shape (.row op) t ∧ solid is = t.yield ∧ t.lower = some y ∧ Reread op y e
  continues : ∀ l x, Shape (.row op) l → l.lower = some x →
    ∃ t y, Shape (.row op) t ∧ l.yield ++ solid (separatorItems op) ++ solid is = t.yield ∧
      t.lower = some y ∧ Reread op y (.binary op x e)

variable {e y : Expr} {op : Connective} {is js : List Item}

/-- A term is an operand of either connective. -/
theorem operand_of_term {t : Tree} (ht : Shape .term t) (hyield : solid is = t.yield)
    (hlower : t.lower = some y) (hread : Reread op y e) : Operand op e is := by
  have hright : Shape (.right op) t := by
    cases op with
    | and => exact ht
    | or => exact .ofTerm ht
  refine ⟨⟨t, y, hright.of_right, hyield, hlower, hread⟩, fun l x hl hx => ?_⟩
  refine ⟨_, .binary op x y, .join hl (joins_printedKeyword op) hright, ?_, ?_, hread.join x⟩
  · rw [solid_separatorItems, hyield]
    simp
  · rw [Shape.lower_join hl hright, hx, hlower]
    rfl

/-- Two operands of a connective, joined by it, are an operand of it again. -/
theorem Operand.join {l r : Expr} (hl : Operand op l is) (hr : Operand op r js) :
    Operand op (.binary op l r) (is ++ separatorItems op ++ js) := by
  constructor
  · obtain ⟨t, y, ht, hyield, hlower, hread⟩ := hl.begins
    obtain ⟨u, z, hu, huyield, hulower, huread⟩ := hr.continues t y ht hlower
    refine ⟨u, z, hu, ?_, hulower, hread.of_left huread⟩
    rw [solid_append, solid_append, hyield, huyield]
  · -- the row before takes the left operand first, so the operands are nested the other way
    intro tree x htree hx
    obtain ⟨t, y, ht, hyield, hlower, hread⟩ := hl.continues tree x htree hx
    obtain ⟨u, z, hu, huyield, hulower, huread⟩ := hr.continues t y ht hlower
    refine ⟨u, z, hu, ?_, hulower, (hread.of_left huread).assoc⟩
    rw [← huyield, ← hyield]
    simp

/-- In parentheses, an operand of one connective is an operand of both. -/
theorem Operand.parens (h : Operand op e is) {e' : Expr} {op' : Connective} (halike : Alike e e')
    (htext : inParens (operandText op e) = operandText op' e') :
    Operand op' e' (.opening .leftParen :: is ++ [.closing .rightParen]) := by
  obtain ⟨t, y, ht, hyield, hlower, hread⟩ := h.begins
  refine operand_of_term (.clause (o := .leftParen) (c := .rightParen) rfl rfl ht.row_or)
    (y := .clause y) ?_ ?_ ⟨((Alike.clause y).trans hread.alike).trans halike, rfl, ?_⟩
  · rw [solid_parens, hyield, Tree.yield_parens rfl rfl]
  · rw [Shape.lower_clause ht.row_or, hlower]
    rfl
  · rw [← htext, ← hread.text_eq]
    rfl

/-- The connective of which an expression needs no parentheses as an operand. -/
def own : Expr → Connective
  | .binary op _ _ => op
  | _ => .or

theorem operandText_own (e : Expr) : operandText e.own e = e.text := by
  cases e <;> simp [operandText, needsParens, own]

/-- **A printed operand is a phrase, and is read as an operand.** -/
theorem Printable.exists_operand (he : e.Printable) (op : Connective) :
    ∃ us is, Phrase us is ∧ tokensText us = operandText op e ∧ Operand op e is := by
  induction e generalizing op with
  | tag q =>
      obtain ⟨w, tree, e, hw, hlexed, hq, htext⟩ := he q (by simp [tags])
      obtain ⟨q', hlower, -⟩ := hw.printable hlexed
      have hlower' : tree.lower = some (.tag q) := by
        obtain ⟨k, cs, rfl, hk⟩ := hw.exists_node
        cases k <;> simp_all [Tree.lower, NodeKind.isTerm]
      refine ⟨w, [.term tree], .term hw hlexed, htext, ?_⟩
      exact operand_of_term (.simple hw) (by rw [hw.yield_eq]; rfl) hlower'
        ⟨Alike.refl _, rfl, rfl⟩
  | clause c ih =>
      obtain ⟨us, is, hphrase, htext, hoperand⟩ := ih he c.own
      have hparens : inParens (operandText c.own c) = operandText op (.clause c) := by
        rw [operandText_own]
        rfl
      refine ⟨_, _, hphrase.parens, ?_, hoperand.parens (Alike.clause c).symm hparens⟩
      rw [← hparens, ← htext]
      simp [inParens, Token.leftParen, Token.rightParen]
  | binary inner l r ihl ihr =>
      have hl : l.Printable := fun q hq => he q (List.mem_append_left _ hq)
      have hr : r.Printable := fun q hq => he q (List.mem_append_right _ hq)
      obtain ⟨us, is, hus, hustext, husoperand⟩ := ihl hl inner
      obtain ⟨vs, js, hvs, hvstext, hvsoperand⟩ := ihr hr inner
      have hphrase := hus.separate hvs inner
      have htext : tokensText (us ++ separatorTokens inner ++ vs)
          = operandText inner (.binary inner l r) := by
        rw [tokensText_append, tokensText_append, hustext, hvstext, tokensText_separatorTokens,
          operandText_binary]
      have hoperand := husoperand.join hvsoperand
      -- parentheses are printed around the operand of another connective only
      by_cases hop : inner = op
      · subst hop
        exact ⟨_, _, hphrase, htext, hoperand⟩
      · have hparens : inParens (operandText inner (.binary inner l r))
            = operandText op (.binary inner l r) := by
          simp [operandText, needsParens, hop]
        refine ⟨_, _, hphrase.parens, ?_, hoperand.parens (Alike.refl _) hparens⟩
        rw [← hparens, ← htext]
        simp [inParens, Token.leftParen, Token.rightParen]

/-- **A printed expression is a phrase that is read as an expression alike**, which is printed in
the same way. -/
theorem Printable.exists_reading (he : e.Printable) :
    ∃ us is t y, Phrase us is ∧ tokensText us = e.text ∧ Reads us (some t) ∧ t.lower = some y ∧
      Alike y e ∧ y.text = e.text := by
  obtain ⟨us, is, hphrase, htext, hoperand⟩ := he.exists_operand e.own
  obtain ⟨t, y, ht, hyield, hlower, hread⟩ := hoperand.begins
  rw [operandText_own] at htext
  exact ⟨us, is, t, y, hphrase, htext, hphrase.reads ht.row_or hyield, hlower, hread.alike,
    hread.text_eq.trans (operandText_own e)⟩

theorem Printable.exists_phrase (he : e.Printable) :
    ∃ us is, Phrase us is ∧ tokensText us = e.text ∧ ReadsLike us (some e) ∧
      PrintsLike us (some e) := by
  obtain ⟨us, is, t, y, hphrase, htext, hreads, hlower, halike, hprinted⟩ := he.exists_reading
  have hmeaning : meaning us = some y := by rw [hreads.meaning, Option.bind_some, hlower]
  refine ⟨us, is, hphrase, htext, ⟨some t, hreads, ?_⟩, ?_⟩
  · rw [Option.bind_some, hlower]
    exact congrArg some halike.normalized_eq
  · rw [PrintsLike, hmeaning]
    exact congrArg some hprinted

end Expr

end CardQuery
