import CardQuery.Proofs.Parse.Formed

/-!
# The tokens of terms

A blank, a keyword and a parenthesis each stand by themselves: none is ever gathered into a term.
Joining makes error nodes as well, but only of single keywords and closing parentheses. So whatever
is wrong with a text, no blank is part of an error.

Main statements: no mark stands in the terms of a row (`unmarked_items`), and no blank in the error
nodes of a text (`not_isBlank_of_error`).
-/

set_option autoImplicit false

namespace CardQuery

open CardQuery.Tree (AllOf tokensOf)

/-! ## Terms without marks -/

/-- Whether neither blanks nor keywords nor parentheses stand in the term that an item is, if it
is one. -/
def Item.Unmarked : Item → Prop
  | .term tree => ∀ t ∈ tree.tokens, Item.ofMark? t = none
  | _ => True

theorem isBlank_eq_false_of_unmarked {t : Token} (h : Item.ofMark? t = none) :
    t.isBlank = false := by
  cases hk : t.kind <;> simp_all [Item.ofMark?, Token.isBlank]

namespace Draft

/-- Whether neither blanks nor keywords nor parentheses stand in a draft, unless it is one. -/
def Unmarked : Draft → Prop
  | .complete i => i.Unmarked
  | d => ∀ t ∈ d.tokens, Item.ofMark? t = none

theorem unmarked_of_tokens {d : Draft} (h : ∀ t ∈ d.tokens, Item.ofMark? t = none) :
    d.Unmarked := by
  cases d with
  | complete i =>
      cases i with
      | term tree => exact h
      | _ => trivial
  | _ => exact h

theorem unmarked_start (t : Token) : (start t).Unmarked := by
  unfold start
  split <;> simp_all [Unmarked, Item.Unmarked, tokens, Item.ofMark?]

/-- What belongs to an item is no mark. A keyword becomes a word in it. -/
theorem tokens_extend_cases {d d' : Draft} {t : Token} (h : d.extend t = some d') :
    d'.tokens = d.tokens ++ [t] ∧ Item.ofMark? t = none ∨
      d'.tokens = d.tokens ++ [⟨.word, t.text⟩] := by
  cases d <;> simp only [extend] at h
  case complete => cases h
  all_goals
    split at h <;> cases h
    all_goals simp_all [tokens, Item.ofMark?]

theorem unmarked_extend {d d' : Draft} {t : Token} (hd : d.Unmarked)
    (h : d.extend t = some d') : d'.Unmarked := by
  have hbefore : ∀ t ∈ d.tokens, Item.ofMark? t = none := by
    cases d with
    | complete i => cases h
    | _ => exact hd
  refine unmarked_of_tokens ?_
  rcases tokens_extend_cases h with ⟨htokens, ht⟩ | htokens
  · rw [htokens, List.forall_mem_append]
    exact ⟨hbefore, by simpa using ht⟩
  · rw [htokens, List.forall_mem_append]
    exact ⟨hbefore, by simp [Item.ofMark?]⟩

theorem unmarked_finish {d : Draft} (hd : d.Unmarked) (next : Option TokenKind) :
    (d.finish next).Unmarked := by
  have htokens := d.tokens_finish next
  cases hitem : d.finish next with
  | term tree =>
      cases d with
      | complete i =>
          obtain rfl : i = .term tree := hitem
          exact hd
      | _ =>
          rw [hitem] at htokens
          intro t ht
          exact hd t (htokens ▸ ht)
  | _ => trivial

end Draft

/-- **No mark stands in the terms of a row.** -/
theorem unmarked_items (ts : List Token) : ∀ i ∈ items ts, i.Unmarked := by
  cases ts with
  | nil => simp [items]
  | cons t ts =>
      exact Draft.forall_mem_run (P := fun _ => True) (fun t _ => Draft.unmarked_start t)
        (fun hd _ hext => Draft.unmarked_extend hd hext) Draft.unmarked_finish
        (Draft.unmarked_start t) fun _ _ => trivial

/-! ## Errors without blanks -/

/-- Whether no blank stands in a node behind its first token, if it is an error. -/
def NodeKind.KeepsBlanksOut (k : NodeKind) (cs : List Tree) : Prop :=
  k = .error → (tokensOf cs).tail.filter Token.isBlank = []

namespace Tree

mutual

/-- The blanks in the error nodes of a tree, behind the first token of each. -/
def looseBlanks : Tree → List Token
  | .token _ => []
  | .node k cs =>
    (if k = .error then (tokensOf cs).tail.filter Token.isBlank else []) ++ looseBlanksOf cs

/-- The blanks in the error nodes of several trees, behind the first token of each. -/
def looseBlanksOf : List Tree → List Token
  | [] => []
  | c :: cs => looseBlanks c ++ looseBlanksOf cs

end

@[simp] theorem looseBlanks_token (t : Token) : (token t).looseBlanks = [] := by
  simp [looseBlanks]

@[simp] theorem looseBlanks_node (k : NodeKind) (cs : List Tree) :
    (node k cs).looseBlanks
      = (if k = .error then (tokensOf cs).tail.filter Token.isBlank else [])
        ++ looseBlanksOf cs := by
  simp [looseBlanks]

@[simp] theorem looseBlanksOf_nil : looseBlanksOf [] = [] := by
  simp [looseBlanksOf]

@[simp] theorem looseBlanksOf_cons (c : Tree) (cs : List Tree) :
    looseBlanksOf (c :: cs) = c.looseBlanks ++ looseBlanksOf cs := by
  simp [looseBlanksOf]

theorem looseBlanksOf_append (xs ys : List Tree) :
    looseBlanksOf (xs ++ ys) = looseBlanksOf xs ++ looseBlanksOf ys := by
  induction xs with
  | nil => simp
  | cons x xs ih => simp [ih]

theorem flattens_looseBlanksOf : Flattens looseBlanksOf where
  append := looseBlanksOf_append
  binary op cs := by simp
  clause cs := by simp
  error t := by simp [leaf]

mutual

theorem looseBlanks_eq_nil {t : Tree} (h : ∀ x ∈ t.tokens, x.isBlank = false) :
    t.looseBlanks = [] := by
  cases t with
  | token t => simp
  | node k cs =>
      rw [tokens_node] at h
      have htail : (tokensOf cs).tail.filter Token.isBlank = [] :=
        List.filter_eq_nil_iff.2 fun x hx => by simp [h x (List.mem_of_mem_tail hx)]
      rw [looseBlanks_node, looseBlanksOf_eq_nil h, htail]
      simp

theorem looseBlanksOf_eq_nil {cs : List Tree} (h : ∀ x ∈ tokensOf cs, x.isBlank = false) :
    looseBlanksOf cs = [] := by
  cases cs with
  | nil => simp
  | cons c cs =>
      rw [tokensOf_cons, List.forall_mem_append] at h
      rw [looseBlanksOf_cons, looseBlanks_eq_nil h.1, looseBlanksOf_eq_nil h.2, List.append_nil]

end

mutual

theorem all_keepsBlanksOut {t : Tree} (h : t.looseBlanks = []) :
    t.All NodeKind.KeepsBlanksOut := by
  cases t with
  | token t => simp
  | node k cs =>
      rw [looseBlanks_node, List.append_eq_nil_iff] at h
      rw [all_node]
      exact ⟨fun hk => by simpa [hk] using h.1, allOf_keepsBlanksOut h.2⟩

theorem allOf_keepsBlanksOut {cs : List Tree} (h : looseBlanksOf cs = []) :
    AllOf NodeKind.KeepsBlanksOut cs := by
  cases cs with
  | nil => simp
  | cons c cs =>
      rw [looseBlanksOf_cons, List.append_eq_nil_iff] at h
      rw [allOf_cons]
      exact ⟨all_keepsBlanksOut h.1, allOf_keepsBlanksOut h.2⟩

end

end Tree

theorem allOf_keepsBlanksOut_regionTrees (ts : List Token) :
    AllOf NodeKind.KeepsBlanksOut (regionTrees ts) := by
  refine Tree.allOf_keepsBlanksOut ?_
  rw [Tree.flattens_looseBlanksOf.regionTrees, List.flatMap_eq_nil_iff]
  intro i hi
  have hunmarked := unmarked_items ts i hi
  cases i with
  | term tree =>
      have hblank : ∀ x ∈ tree.tokens, x.isBlank = false := fun x hx =>
        isBlank_eq_false_of_unmarked (hunmarked x hx)
      simp [Item.trees, Tree.looseBlanks_eq_nil hblank]
  | _ => simp [Item.trees]

theorem all_keepsBlanksOut_parse (t : Text) : (parse t).All NodeKind.KeepsBlanksOut := by
  refine all_parseTokens (fun k cs houter hk => ?_) fun region _ =>
    ⟨allOf_keepsBlanksOut_regionTrees _, allOf_keepsBlanksOut_regionTrees _⟩
  rw [hk] at houter
  cases houter

/-- **No blank stands in an error.** The first token of an error is the problem, and none of those
behind it is a blank. -/
theorem not_isBlank_of_error {cs : List Tree}
    (hblanks : NodeKind.error.KeepsBlanksOut cs) (hformed : NodeKind.error.OuterOrFormed cs) :
    ∀ t ∈ tokensOf cs, t.isBlank = false := by
  intro t ht
  obtain ⟨x, p, hhead, hp⟩ := hformed.resolve_left (by decide)
  cases hcs : tokensOf cs with
  | nil => rw [hcs] at ht; cases ht
  | cons y rest =>
      have hrest := hblanks rfl
      rw [hcs] at ht hrest hhead
      obtain rfl : y = x := by simpa using hhead
      rcases List.mem_cons.1 ht with rfl | ht
      · cases hk : t.kind <;> simp_all [TokenKind.problem?, Token.isBlank]
      · simpa using List.filter_eq_nil_iff.1 hrest t ht

end CardQuery
