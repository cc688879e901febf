import CardQuery.Parse.Group
import CardQuery.Parse.Header
import CardQuery.Token.Scanner

/-!
# The tree of a text

`parse` reads any text into a tree. A text with no header is one region. A text with headers has a
domain, the expressions before the first header if there are any, and then one query for each
header. The text is cut at the headers before anything else is read, so what is wrong in one query
never reaches another.

Main statement: no text is lost, whatever is wrong with it (`text_parse`).
-/

set_option autoImplicit false

namespace CardQuery

/-- The tree of a named query. -/
def Section.tree (s : Section) : Tree :=
  .node .query
    (.leaf .queryName s.name :: .token s.colon :: (s.body.takeWhile Token.isBlank).map .token
      ++ [.node .queryBody (regionTrees (s.body.dropWhile Token.isBlank))])

/-- The trees of the tokens before the first header: blanks, and the domain when there is more. -/
def domainTrees (ts : List Token) : List Tree :=
  (ts.takeWhile Token.isBlank).map .token ++
    match ts.dropWhile Token.isBlank with
    | [] => []
    | solid => [.node .domain (regionTrees solid)]

/-- The tree of a text given by its tokens. -/
def parseTokens (ts : List Token) : Tree :=
  match cutAtHeaders ts with
  | (run, []) => .node .program (regionTrees run)
  | (run, sections) => .node .program (domainTrees run ++ sections.map Section.tree)

/-- The tree of a text. -/
def parse (t : Text) : Tree :=
  parseTokens (tokenize t)

@[simp] theorem tokensText_regionTrees (ts : List Token) :
    tokensText (Tree.tokensOf (regionTrees ts)) = tokensText ts := by
  rw [tokensOf_regionTrees, tokensText_items]

theorem Section.text_tree (s : Section) : s.tree.text = tokensText s.tokens := by
  have h : tokensText (s.body.takeWhile Token.isBlank)
      ++ tokensText (s.body.dropWhile Token.isBlank) = tokensText s.body := by
    rw [← tokensText_append, List.takeWhile_append_dropWhile]
  simp [Section.tree, Section.tokens, Tree.text, h]

theorem tokensText_sections (sections : List Section) :
    tokensText (Tree.tokensOf (sections.map Section.tree))
      = tokensText (sections.flatMap Section.tokens) := by
  induction sections with
  | nil => rfl
  | cons s sections ih =>
    have h : tokensText s.tree.tokens = tokensText s.tokens := s.text_tree
    simp [h, ih]

theorem tokensText_domainTrees (ts : List Token) :
    tokensText (Tree.tokensOf (domainTrees ts)) = tokensText ts := by
  have h : tokensText (ts.takeWhile Token.isBlank)
      ++ tokensText (ts.dropWhile Token.isBlank) = tokensText ts := by
    rw [← tokensText_append, List.takeWhile_append_dropWhile]
  unfold domainTrees
  split
  · next hsolid => simpa [hsolid] using h
  · simpa using h

theorem text_parseTokens (ts : List Token) : (parseTokens ts).text = tokensText ts := by
  have h := cutFrom_tokens true true ts
  unfold parseTokens cutAtHeaders
  split
  · next run hcut =>
    simp only [hcut, List.flatMap_nil, List.append_nil] at h
    simp [Tree.text, h]
  · next run sections _ hcut =>
    rw [hcut] at h
    simp only [Tree.text, Tree.tokens_node, Tree.tokensOf_append, tokensText_append,
      tokensText_domainTrees, tokensText_sections]
    rw [← tokensText_append, h]

/-- A text can be read off its tree. -/
theorem text_parse (t : Text) : (parse t).text = t := by
  rw [parse, text_parseTokens, tokensText_tokenize]

end CardQuery
