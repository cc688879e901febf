import CardQuery.Text.Basic

/-!
# Tokens

The smallest pieces of a query: words, quoted literals, comparison operators, keywords and
punctuation, with the blanks between them. A token carries its text and no position; where it
stands follows from the widths of the tokens before it.
-/

set_option autoImplicit false

namespace CardQuery

/-- The two ways to combine expressions. -/
inductive Connective
  | and
  | or
  deriving DecidableEq, Repr

/-- The comparisons between an argument and its value. -/
inductive Comparison
  | colon
  | equal
  | notEqual
  | less
  | greater
  | lessEqual
  | greaterEqual
  deriving DecidableEq, Repr

/-- The quoted literals: strings in quotes and regular expressions in slashes. -/
inductive LiteralKind
  | string
  | regex
  deriving DecidableEq, Repr

/-- The character that opens and closes a literal. -/
def LiteralKind.mark : LiteralKind → Char
  | .string => '"'
  | .regex => '/'

/-- What a token is. An `unknown` token is a character that starts nothing else. -/
inductive TokenKind
  | blank
  | word
  | literal (kind : LiteralKind)
  | leftParen
  | rightParen
  | minus
  | comparison (op : Comparison)
  | keyword (op : Connective)
  | unknown
  deriving DecidableEq, Repr

/-- Whether a kind is a comparison. -/
def TokenKind.isComparison : TokenKind → Bool
  | .comparison _ => true
  | _ => false

/-- Whether a kind is `and` or `or`. -/
def TokenKind.isKeyword : TokenKind → Bool
  | .keyword _ => true
  | _ => false

/-- A token: what it is and how it is spelled. -/
structure Token where
  kind : TokenKind
  text : Text
  deriving DecidableEq, Repr

namespace Token

/-- The number of bytes a token takes. -/
def width (t : Token) : Nat :=
  t.text.width

/-- Whether a token only separates others. -/
def isBlank (t : Token) : Bool :=
  t.kind = .blank

end Token

/-- The text of a run of tokens. -/
def tokensText (ts : List Token) : Text :=
  ts.flatMap Token.text

/-- The number of bytes of a run of tokens. -/
def tokensWidth : List Token → Nat
  | [] => 0
  | t :: ts => t.width + tokensWidth ts

@[simp] theorem tokensText_nil : tokensText [] = [] := rfl

@[simp] theorem tokensText_cons (t : Token) (ts : List Token) :
    tokensText (t :: ts) = t.text ++ tokensText ts := rfl

@[simp] theorem tokensText_append (ts us : List Token) :
    tokensText (ts ++ us) = tokensText ts ++ tokensText us :=
  List.flatMap_append

theorem width_tokensText (ts : List Token) : (tokensText ts).width = tokensWidth ts := by
  induction ts with
  | nil => rfl
  | cons t ts ih =>
    simp only [tokensText, List.flatMap_cons, tokensWidth, Text.width_append] at ih ⊢
    rw [ih, Token.width]

theorem tokensWidth_append (ts us : List Token) :
    tokensWidth (ts ++ us) = tokensWidth ts + tokensWidth us := by
  induction ts with
  | nil => simp [tokensWidth]
  | cons t ts ih => simp [tokensWidth, ih, Nat.add_assoc]

/-- A run of tokens without the blanks at its start and at its end. -/
def trimTokens (ts : List Token) : List Token :=
  ((ts.dropWhile Token.isBlank).reverse.dropWhile Token.isBlank).reverse

/-- A range of bytes. -/
structure Span where
  start : Nat
  stop : Nat
  deriving DecidableEq, Repr

/-- A token and the byte at which it starts. -/
structure PlacedToken where
  token : Token
  start : Nat
  deriving DecidableEq, Repr

/-- The range of a placed token. -/
def PlacedToken.span (p : PlacedToken) : Span :=
  ⟨p.start, p.start + p.token.width⟩

/-- Tokens side by side, the first of them at `start`. -/
def placeTokens (start : Nat) : List Token → List PlacedToken
  | [] => []
  | t :: ts => ⟨t, start⟩ :: placeTokens (start + t.width) ts

theorem placeTokens_append (start : Nat) (ts us : List Token) :
    placeTokens start (ts ++ us)
      = placeTokens start ts ++ placeTokens (start + tokensWidth ts) us := by
  induction ts generalizing start with
  | nil => rfl
  | cons t ts ih => simp [placeTokens, tokensWidth, ih, Nat.add_assoc]

/-- Tokens with the same texts stand at the same places. -/
theorem placeTokens_map_text {ts us : List Token} (h : ts.map Token.text = us.map Token.text)
    (start : Nat) :
    (placeTokens start ts).map (fun p => (p.token.text, p.span))
      = (placeTokens start us).map fun p => (p.token.text, p.span) := by
  induction ts generalizing us start with
  | nil =>
    obtain rfl : us = [] := by simpa using h.symm
    rfl
  | cons t ts ih =>
    cases us with
    | nil => cases h
    | cons u us =>
      obtain ⟨htext, hrest⟩ := List.cons.inj h
      have hwidth : t.width = u.width := by rw [Token.width, Token.width, htext]
      rw [placeTokens, placeTokens, List.map_cons, List.map_cons, ih hrest, hwidth]
      simp [PlacedToken.span, htext, hwidth]

end CardQuery
