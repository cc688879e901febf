import CardQuery.Argument.Alias

/-!
# Query headers

A text can hold several named queries. A query begins with its header: a word at the start of a
line, directly followed by a colon and then by a blank or the end of the text. A word that spells
an argument never names a query, so a tag typed at the start of a line stays a tag.

`cutAtHeaders` splits a list of tokens into the part before the first header and one `Section` for
each header.
-/

set_option autoImplicit false

namespace CardQuery

/-- A header and the tokens from its colon up to the next header. -/
structure Section where
  name : Token
  colon : Token
  body : List Token
  deriving DecidableEq, Repr

/-- The tokens of a section. -/
def Section.tokens (s : Section) : List Token :=
  s.name :: s.colon :: s.body

/-- Whether a token at the start of a line is a header when `rest` follows it. -/
def isHeader (t : Token) (rest : List Token) : Bool :=
  t.kind = .word && rest.head?.any (fun c => c.kind = .comparison .colon)
    && rest.tail.head?.all Token.isBlank && !isArgument t.text

/-- Whether a line starts after a token: it is blank, and has a newline or is the first token. -/
def startsLine (first : Bool) (t : Token) : Bool :=
  t.isBlank && (first || t.text.any (· = '\n'))

/-- The tokens before the first header, and the sections. `first` tells whether no token comes
before these, and `atLine` whether a line starts here. -/
def cutFrom (first atLine : Bool) : List Token → List Token × List Section
  | [] => ([], [])
  | t :: ts =>
    match cutFrom false (startsLine first t) ts with
    | ([], sections) => ([t], sections)
    | (colon :: body, sections) =>
      if atLine && isHeader t ts then ([], ⟨t, colon, body⟩ :: sections)
      else (t :: colon :: body, sections)

/-- The tokens before the first header, and the sections. -/
def cutAtHeaders (ts : List Token) : List Token × List Section :=
  cutFrom true true ts

/-- Cutting loses no token and keeps their order. -/
theorem cutFrom_tokens (first atLine : Bool) (ts : List Token) :
    (cutFrom first atLine ts).1 ++ (cutFrom first atLine ts).2.flatMap Section.tokens = ts := by
  induction ts generalizing first atLine with
  | nil => rfl
  | cons t ts ih =>
    have h := ih false (startsLine first t)
    rcases hcut : cutFrom false (startsLine first t) ts with ⟨run, sections⟩
    rw [hcut] at h
    cases run with
    | nil => simpa [cutFrom, hcut] using h
    | cons colon body =>
      by_cases hc : (atLine && isHeader t ts) = true
      · simpa [cutFrom, hcut, hc, Section.tokens] using h
      · simpa [cutFrom, hcut, hc] using h

end CardQuery
