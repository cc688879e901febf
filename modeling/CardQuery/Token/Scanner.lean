import CardQuery.Text.Blank
import CardQuery.Token.Basic

/-!
# Reading tokens

A text is read one character at a time. `Scan` is what is known about the token being read;
`Scan.next` says whether a further character belongs to it, and a token ends where the next
character does not, so each token is as long as its rules allow. Every character starts some
token, so reading never fails.

A backslash in a literal takes the character after it along. At a newline or at the end of the
text there is no such character: the literal then ends before the backslash, and the backslash is
a word of its own.

Main statement: the texts of the tokens, put together, are the text (`tokensText_tokenize`).
-/

set_option autoImplicit false

namespace CardQuery

/-- Whether a character can stand in a word after its first character. -/
def isWordChar (c : Char) : Bool :=
  !isBlank c && !(['(', ')', '"', ':', '=', '<', '>', '!'].contains c)

/-- The kind of token that a word's text makes: `and` and `or`, in any case, are keywords. -/
def wordKind (t : Text) : TokenKind :=
  let small := t.asciiLower
  if small = ['a', 'n', 'd'] then .keyword .and
  else if small = ['o', 'r'] then .keyword .or
  else .word

/-- The token being read. -/
inductive Scan
  /-- A run of blanks. -/
  | blank
  /-- A word or a keyword. -/
  | word
  /-- An open literal. -/
  | literal (kind : LiteralKind)
  /-- An open literal, just after a backslash. -/
  | escape (kind : LiteralKind)
  /-- An exclamation mark, which only an equals sign makes an operator. -/
  | bang
  /-- A comparison that an equals sign would extend. -/
  | angle (alone extended : Comparison)
  /-- A token that nothing can extend. -/
  | complete (kind : TokenKind)
  deriving DecidableEq, Repr

namespace Scan

/-- The token that a character starts. -/
def start (c : Char) : Scan :=
  if isBlank c then .blank
  else match c with
    | '(' => .complete .leftParen
    | ')' => .complete .rightParen
    | '"' => .literal .string
    | '/' => .literal .regex
    | '-' => .complete .minus
    | ':' => .complete (.comparison .colon)
    | '=' => .complete (.comparison .equal)
    | '<' => .angle .less .lessEqual
    | '>' => .angle .greater .greaterEqual
    | '!' => .bang
    | _ => .word

/-- The token being read with one more character, if that belongs to it. -/
def next (s : Scan) (c : Char) : Option Scan :=
  match s with
  | .blank => if isBlank c then some .blank else none
  | .word => if isWordChar c then some .word else none
  | .literal kind =>
    if c = kind.mark then some (.complete (.literal kind))
    else if c = '\\' then some (.escape kind)
    else if kind = .regex ∧ c = '\n' then none
    else some (.literal kind)
  | .escape kind => if c = '\n' then none else some (.literal kind)
  | .bang => if c = '=' then some (.complete (.comparison .notEqual)) else none
  | .angle _ extended => if c = '=' then some (.complete (.comparison extended)) else none
  | .complete _ => none

/-- The tokens made by a text that was read to its end. -/
def tokens (s : Scan) (read : Text) : List Token :=
  match s with
  | .blank => [⟨.blank, read⟩]
  | .word => [⟨wordKind read, read⟩]
  | .literal kind => [⟨.literal kind, read⟩]
  | .escape kind => [⟨.literal kind, read.dropLast⟩, ⟨.word, ['\\']⟩]
  | .bang => [⟨.unknown, read⟩]
  | .angle alone _ => [⟨.comparison alone, read⟩]
  | .complete kind => [⟨kind, read⟩]

/-- The tokens of a text of which the part `read` is behind and belongs to the token `s`. -/
def run (s : Scan) (read : Text) : Text → List Token
  | [] => s.tokens read
  | c :: cs =>
    match s.next c with
    | some s' => run s' (read ++ [c]) cs
    | none => s.tokens read ++ run (start c) [c] cs

/-- What has been read of a token fits the state that was reached: just after a backslash, a
backslash was read. -/
def Fits (s : Scan) (read : Text) : Prop :=
  match s with
  | .escape _ => ∃ before : Text, read = before ++ ['\\']
  | _ => True

theorem fits_start (c : Char) : (start c).Fits [c] := by
  unfold start
  split
  · trivial
  · split <;> trivial

theorem fits_next {s s' : Scan} {c : Char} (read : Text) (h : s.next c = some s') :
    s'.Fits (read ++ [c]) := by
  cases s with
  | literal kind =>
    simp only [next] at h
    split at h
    · cases h; trivial
    · split at h
      · next hc => cases h; exact ⟨read, by rw [hc]⟩
      · split at h <;> cases h
        trivial
  | complete kind => simp [next] at h
  | _ =>
    simp only [next] at h
    split at h <;> cases h
    trivial

/-- The tokens made at the end have the text that was read. -/
theorem tokensText_tokens {s : Scan} {read : Text} (h : s.Fits read) :
    tokensText (s.tokens read) = read := by
  cases s with
  | escape kind =>
    obtain ⟨before, rfl⟩ := h
    simp [tokens]
  | _ => simp [tokens]

theorem tokensText_run {s : Scan} {read : Text} (h : s.Fits read) (t : Text) :
    tokensText (s.run read t) = read ++ t := by
  induction t generalizing s read with
  | nil => simpa [run] using tokensText_tokens h
  | cons c cs ih =>
    rw [run]
    split
    · next s' hs => simpa using ih (fits_next read hs)
    · simp [tokensText_tokens h, ih (fits_start c)]

end Scan

/-- The tokens of a text. -/
def tokenize : Text → List Token
  | [] => []
  | c :: cs => Scan.run (Scan.start c) [c] cs

/-- Reading loses no character and keeps their order. -/
theorem tokensText_tokenize (t : Text) : tokensText (tokenize t) = t := by
  cases t with
  | nil => rfl
  | cons c cs => simpa [tokenize] using Scan.tokensText_run (Scan.fits_start c) cs

end CardQuery
