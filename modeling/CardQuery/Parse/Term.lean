import CardQuery.Tree.Basic

/-!
# From tokens to terms

The tokens of a region are first gathered into items: blanks, keywords, parentheses and complete
terms. Tokens side by side make one term: a word and a comparison with the value after it, a minus
sign with the word or literal after it, a comparison that follows no word with everything after it
that could have been its value.

`Draft` is the item being gathered. `Draft.extend` says whether a further token belongs to it, and
`Draft.finish` makes the item when the next token does not.
-/

set_option autoImplicit false

namespace CardQuery

/-- What a region is made of before its expressions are joined. -/
inductive Item
  | blank (t : Token)
  | keyword (op : Connective) (t : Token)
  | opening (t : Token)
  | closing (t : Token)
  /-- A term, or an error that stands where a term could. -/
  | term (tree : Tree)
  deriving Repr

/-- The tokens of an item. -/
def Item.tokens : Item → List Token
  | .blank t | .keyword _ t | .opening t | .closing t => [t]
  | .term tree => tree.tokens

/-- A node with a single token. -/
def Tree.leaf (k : NodeKind) (t : Token) : Tree :=
  .node k [.token t]

/-- A node whose children are all tokens. -/
def Tree.flat (k : NodeKind) (ts : List Token) : Tree :=
  .node k (ts.map .token)

@[simp] theorem Tree.tokens_leaf (k : NodeKind) (t : Token) : (Tree.leaf k t).tokens = [t] := by
  simp [Tree.leaf]

@[simp] theorem Tree.tokens_flat (k : NodeKind) (ts : List Token) :
    (Tree.flat k ts).tokens = ts := by
  simp [Tree.flat]

/-- The item being gathered. -/
inductive Draft
  /-- An item that nothing extends. -/
  | complete (item : Item)
  /-- A minus sign. -/
  | minus (sign : Token)
  /-- A word, which a comparison makes an argument. -/
  | word (sign : Option Token) (word : Token)
  /-- An argument and its comparison, before the value. -/
  | tag (sign : Option Token) (argument operator : Token)
  /-- A tag whose value is a run of words and minus signs. -/
  | value (sign : Option Token) (argument operator : Token) (words : List Token)
  /-- A comparison with no argument, and what could have been its value. -/
  | stray (tokens : List Token)
  deriving Repr

namespace Draft

/-- A tag made of the parts, after the minus sign if there is one. -/
def tagOf (sign : Option Token) (parts : List Tree) : Item :=
  .term (.node .tag (sign.toList.map (Tree.leaf .sign) ++ parts))

/-- The item that a token begins. -/
def start (t : Token) : Draft :=
  match t.kind with
  | .blank => .complete (.blank t)
  | .keyword op => .complete (.keyword op t)
  | .leftParen => .complete (.opening t)
  | .rightParen => .complete (.closing t)
  | .literal k => .complete (.term (.leaf (.literal k) t))
  | .unknown => .complete (.term (.leaf .error t))
  | .word => .word none t
  | .minus => .minus t
  | .comparison _ => .stray [t]

/-- The item with one more token, if that belongs to it. A keyword just after a comparison is a
value, and becomes a word. -/
def extend (d : Draft) (t : Token) : Option Draft :=
  match d with
  | .complete _ => none
  | .minus m =>
    match t.kind with
    | .word => some (.word (some m) t)
    | .literal k => some (.complete (tagOf (some m) [.leaf (.literal k) t]))
    | _ => none
  | .word sign w =>
    match t.kind with
    | .comparison _ => some (.tag sign w t)
    | _ => none
  | .tag sign a op =>
    match t.kind with
    | .literal k =>
      some (.complete (tagOf sign [.leaf .argument a, .leaf .operator op, .leaf (.literal k) t]))
    | .keyword _ =>
      some (.complete (tagOf sign
        [.leaf .argument a, .leaf .operator op, .leaf .value ⟨.word, t.text⟩]))
    | .word | .minus => some (.value sign a op [t])
    | _ => none
  | .value sign a op words =>
    match t.kind with
    | .word | .minus => some (.value sign a op (words ++ [t]))
    | _ => none
  | .stray ts =>
    match t.kind with
    | .word | .minus | .literal _ => some (.stray (ts ++ [t]))
    | _ => none

/-- The item, when the token after it, if any, does not belong to it. A minus sign before a
parenthesis negates nothing and is an error; elsewhere it makes a tag, with or without a term. -/
def finish (d : Draft) (next : Option TokenKind) : Item :=
  match d with
  | .complete item => item
  | .minus m => if next = some .leftParen then .term (.leaf .error m) else tagOf (some m) []
  | .word none w => .term (.leaf .argument w)
  | .word (some m) w => tagOf (some m) [.leaf .argument w]
  | .tag sign a op => tagOf sign [.leaf .argument a, .leaf .operator op]
  | .value sign a op words =>
    tagOf sign [.leaf .argument a, .leaf .operator op, .flat .value words]
  | .stray ts => .term (.flat .error ts)

/-- The items of the tokens `ts` when the item `d` has been begun before them. -/
def run (d : Draft) : List Token → List Item
  | [] => [d.finish none]
  | t :: ts =>
    match d.extend t with
    | some d' => run d' ts
    | none => d.finish (some t.kind) :: run (start t) ts

/-- The tokens gathered so far. -/
def tokens : Draft → List Token
  | .complete item => item.tokens
  | .minus m => [m]
  | .word sign w => sign.toList ++ [w]
  | .tag sign a op => sign.toList ++ [a, op]
  | .value sign a op words => sign.toList ++ a :: op :: words
  | .stray ts => ts

@[simp] theorem tokens_tagOf (sign : Option Token) (parts : List Tree) :
    (tagOf sign parts).tokens = sign.toList ++ Tree.tokensOf parts := by
  cases sign <;> simp [tagOf, Item.tokens]

theorem tokens_start (t : Token) : (start t).tokens = [t] := by
  unfold start
  split <;> simp [tokens, Item.tokens]

theorem tokens_finish (d : Draft) (next : Option TokenKind) :
    (d.finish next).tokens = d.tokens := by
  cases d with
  | complete item => rfl
  | minus m =>
    simp only [finish]
    split
    · simp [Item.tokens, tokens]
    · simp [tokens]
  | word sign w =>
    cases sign with
    | none => simp [finish, tokens, Item.tokens]
    | some m => simp [finish, tokens]
  | tag sign a op => simp [finish, tokens]
  | value sign a op words => simp [finish, tokens]
  | stray ts => simp [finish, tokens, Item.tokens]

/-- A further token adds its text; the kind changes when a keyword becomes a value. -/
theorem tokensText_extend {d d' : Draft} {t : Token} (h : d.extend t = some d') :
    tokensText d'.tokens = tokensText d.tokens ++ t.text := by
  cases d <;> simp only [extend] at h
  case complete => cases h
  all_goals split at h <;> cases h <;> simp [tokens]

theorem tokensText_run (d : Draft) (ts : List Token) :
    tokensText ((d.run ts).flatMap Item.tokens) = tokensText d.tokens ++ tokensText ts := by
  induction ts generalizing d with
  | nil => simp [run, tokens_finish]
  | cons t ts ih =>
    rw [run]
    split
    · next d' h => simp [ih, tokensText_extend h]
    · simp [ih, tokens_finish, tokens_start]

end Draft

/-- The items of a run of tokens. -/
def items : List Token → List Item
  | [] => []
  | t :: ts => Draft.run (Draft.start t) ts

/-- Gathering loses no character and keeps their order. -/
theorem tokensText_items (ts : List Token) :
    tokensText ((items ts).flatMap Item.tokens) = tokensText ts := by
  cases ts with
  | nil => rfl
  | cons t ts => simp [items, Draft.tokensText_run, Draft.tokens_start]

end CardQuery
