import CardQuery.Argument.Alias
import CardQuery.Parse.Problem
import CardQuery.Parse.Term
import CardQuery.Proofs.Tree.Squeeze

/-!
# Spelling tokens anew

A `Respelling` gives every token another text and leaves its kind. It may change only what reading
never looks at: a word must spell an argument before just when it does so after, a blank keeps
whether it has a newline, and a literal stays closed or open.

This module carries a respelling from tokens to trees. The parts of a respelled tree are the
respelled parts of the tree.
-/

set_option autoImplicit false

namespace CardQuery

/-- Another text for every token, with the same answers to what reading asks. -/
structure Respelling where
  /-- The new text of a token of a kind and a text. -/
  spell : TokenKind → Text → Text
  /-- A keyword is spelled like the word that it is in the place of a value. -/
  spell_keyword : ∀ op t, spell (.keyword op) t = spell .word t
  /-- What spells an argument still does. -/
  isArgument_spell : ∀ t, isArgument (spell .word t) = isArgument t
  /-- A newline is neither added to a blank nor taken from it. -/
  newline_spell : ∀ t, (spell .blank t).any (· = '\n') = t.any (· = '\n')
  /-- What is a closed literal stays one, and nothing else becomes one. -/
  isClosedLiteral_spell : ∀ mark k t, isClosedLiteral mark (spell k t) = isClosedLiteral mark t
  /-- No token loses all its text. -/
  spell_eq_nil : ∀ k t, spell k t = [] ↔ t = []

namespace Respelling

/-- A token with its new text. -/
def token (r : Respelling) (t : Token) : Token :=
  ⟨t.kind, r.spell t.kind t.text⟩

variable (r : Respelling)

@[simp] theorem kind_token (t : Token) : (r.token t).kind = t.kind := rfl

@[simp] theorem isBlank_token (t : Token) : (r.token t).isBlank = t.isBlank := rfl

/-- A keyword that becomes a word is spelled as before. -/
theorem token_word_of_keyword {t : Token} {op : Connective} (h : t.kind = .keyword op) :
    r.token ⟨.word, t.text⟩ = ⟨.word, (r.token t).text⟩ := by
  simp [token, h, r.spell_keyword]

theorem takeWhile_isBlank (ts : List Token) :
    (ts.map r.token).takeWhile Token.isBlank = (ts.takeWhile Token.isBlank).map r.token := by
  rw [List.takeWhile_map]
  rfl

theorem dropWhile_isBlank (ts : List Token) :
    (ts.map r.token).dropWhile Token.isBlank = (ts.dropWhile Token.isBlank).map r.token := by
  rw [List.dropWhile_map]
  rfl

theorem trimTokens_map (ts : List Token) :
    trimTokens (ts.map r.token) = (trimTokens ts).map r.token := by
  rw [trimTokens, dropWhile_isBlank, ← List.map_reverse, dropWhile_isBlank, ← List.map_reverse,
    trimTokens]

theorem tokensText_eq_nil_iff (ts : List Token) :
    tokensText (ts.map r.token) = [] ↔ tokensText ts = [] := by
  induction ts with
  | nil => rfl
  | cons t ts ih =>
      rw [List.map_cons, tokensText_cons, tokensText_cons, List.append_eq_nil_iff,
        List.append_eq_nil_iff, ih]
      exact and_congr_left fun _ => r.spell_eq_nil t.kind t.text

end Respelling

namespace Tree

mutual

/-- A tree with its tokens spelled anew. -/
def respell (r : Respelling) : Tree → Tree
  | .token t => .token (r.token t)
  | .node k cs => .node k (respellEach r cs)

/-- Several trees with their tokens spelled anew. -/
def respellEach (r : Respelling) : List Tree → List Tree
  | [] => []
  | c :: cs => c.respell r :: respellEach r cs

end

variable (r : Respelling)

theorem respellEach_eq_map (cs : List Tree) : respellEach r cs = cs.map (respell r) := by
  induction cs with
  | nil => simp [respellEach]
  | cons c cs ih => simp [respellEach, ih]

@[simp] theorem respell_token (t : Token) : (token t).respell r = token (r.token t) := by
  simp [respell]

@[simp] theorem respell_node (k : NodeKind) (cs : List Tree) :
    (node k cs).respell r = node k (cs.map (respell r)) := by
  rw [respell, respellEach_eq_map]

@[simp] theorem respell_leaf (k : NodeKind) (t : Token) :
    (leaf k t).respell r = leaf k (r.token t) := by
  simp [leaf]

theorem map_respell_token (ts : List Token) :
    (ts.map token).map (respell r) = (ts.map r.token).map token := by
  simp

@[simp] theorem respell_flat (k : NodeKind) (ts : List Token) :
    (flat k ts).respell r = flat k (ts.map r.token) := by
  simp [flat]

mutual

theorem tokens_respell (t : Tree) : (t.respell r).tokens = t.tokens.map r.token := by
  cases t with
  | token t => simp
  | node k cs => rw [respell_node, tokens_node, tokens_node, tokensOf_respell]

theorem tokensOf_respell (cs : List Tree) :
    tokensOf (cs.map (respell r)) = (tokensOf cs).map r.token := by
  cases cs with
  | nil => simp
  | cons c cs =>
      rw [List.map_cons, tokensOf_cons, tokensOf_cons, tokens_respell c, tokensOf_respell cs,
        List.map_append]

end

mutual

/-- A tree whose tokens are spelled as before is the same tree. -/
theorem respell_eq_self {t : Tree} (h : ∀ x ∈ t.tokens, r.token x = x) : t.respell r = t := by
  cases t with
  | token t => rw [respell_token, h t (by simp)]
  | node k cs =>
      rw [tokens_node] at h
      rw [respell_node, map_respell_eq_self h]

theorem map_respell_eq_self {cs : List Tree} (h : ∀ x ∈ tokensOf cs, r.token x = x) :
    cs.map (respell r) = cs := by
  cases cs with
  | nil => rfl
  | cons c cs =>
      rw [tokensOf_cons, List.forall_mem_append] at h
      rw [List.map_cons, respell_eq_self h.1, map_respell_eq_self h.2]

end

/-! ## Kinds and parts -/

@[simp] theorem kind?_respell (t : Tree) : (t.respell r).kind? = t.kind? := by
  cases t <;> simp

@[simp] theorem tokenKind?_respell (t : Tree) : (t.respell r).tokenKind? = t.tokenKind? := by
  cases t <;> simp

@[simp] theorem isNode_respell (t : Tree) : (t.respell r).isNode = t.isNode := by
  simp [isNode]

@[simp] theorem isExpression_respell (t : Tree) : (t.respell r).isExpression = t.isExpression := by
  simp [isExpression]

@[simp] theorem isKind_respell (k : NodeKind) (t : Tree) :
    (t.respell r).isKind k = t.isKind k := by
  simp [isKind]

theorem children_respell (t : Tree) : (t.respell r).children = t.children.map (respell r) := by
  cases t with
  | token t => simp [children]
  | node k cs => simp [children]

/-- A child that is found by its kind is found again. -/
theorem find?_children_respell {p : Tree → Bool} (hp : ∀ c : Tree, p (c.respell r) = p c)
    (t : Tree) : (t.respell r).children.find? p = (t.children.find? p).map (respell r) := by
  have hcomp : p ∘ respell r = p := funext hp
  rw [children_respell, List.find?_map, hcomp]

theorem filter_children_respell {p : Tree → Bool} (hp : ∀ c : Tree, p (c.respell r) = p c)
    (t : Tree) : (t.respell r).children.filter p = (t.children.filter p).map (respell r) := by
  have hcomp : p ∘ respell r = p := funext hp
  rw [children_respell, List.filter_map, hcomp]

@[simp] theorem child?_respell (k : NodeKind) (t : Tree) :
    (t.respell r).child? k = (t.child? k).map (respell r) :=
  find?_children_respell r (isKind_respell r k) t

@[simp] theorem value?_respell (t : Tree) :
    (t.respell r).value? = t.value?.map (respell r) :=
  find?_children_respell r (fun c => by rw [kind?_respell]) t

theorem queries_respell (t : Tree) : (t.respell r).queries = t.queries.map (respell r) :=
  filter_children_respell r (isKind_respell r .query) t

theorem firstToken?_respell (t : Tree) :
    (t.respell r).firstToken? = t.firstToken?.map r.token := by
  rw [firstToken?, children_respell, List.findSome?_map, firstToken?, List.map_findSome?]
  congr 1
  funext c
  cases c with
  | node k cs => simp
  | token t => by_cases h : t.isBlank = true <;> simp [h]

@[simp] theorem comparisonKind?_respell (t : Tree) :
    (t.respell r).comparisonKind? = t.comparisonKind? := by
  rw [comparisonKind?, firstToken?_respell, Option.map_map, comparisonKind?]
  rfl

theorem trimmedText_respell_eq_nil (t : Tree) :
    tokensText (trimTokens (t.respell r).tokens) = []
      ↔ tokensText (trimTokens t.tokens) = [] := by
  rw [tokens_respell, r.trimTokens_map, r.tokensText_eq_nil_iff]

end Tree

end CardQuery
