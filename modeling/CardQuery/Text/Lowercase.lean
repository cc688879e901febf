import CardQuery.Text.LetterTable
import CardQuery.Text.Basic

/-!
# Lowercase

The lowercase form of a text by Unicode's rules: each character goes to its lowercase mapping,
with two exceptions. The capital I with a dot becomes a small i and a combining dot. A capital
sigma becomes the final small sigma when it ends a word: the nearest character before it that is
not skipped has case, and the nearest one after it has not.
-/

set_option autoImplicit false

namespace CardQuery

/-- Whether a code point lies in one of the runs. -/
def inRuns (runs : List (Nat × Nat)) (n : Nat) : Bool :=
  runs.any fun (first, last) => first ≤ n && n ≤ last

/-- The lowercase mapping of one character. -/
def lowerChar (c : Char) : Char :=
  let n := c.toNat
  match LetterTable.lowercaseRuns.find? fun (first, last, step, _) =>
      first ≤ n && n ≤ last && (n - first) % step == 0 with
  | some (_, _, _, shift) => Char.ofNat ((n : Int) + shift).toNat
  | none => c

namespace Text

/-- Whether the first character that is not skipped has case. -/
def startsCased (t : Text) : Bool :=
  match t.dropWhile fun c => inRuns LetterTable.ignorableRuns c.toNat with
  | [] => false
  | c :: _ => inRuns LetterTable.casedRuns c.toNat

/-- The lowercase form of `c` between the text `before` it, last character first, and the text
`after` it. -/
def lowerBetween (before : Text) (c : Char) (after : Text) : Text :=
  if c = 'İ' then ['i', '\u0307']
  else if c = 'Σ' then
    if startsCased before && !startsCased after then ['ς'] else ['σ']
  else [lowerChar c]

/-- The lowercase form of a text that follows `before`, last character first. -/
def lowerAfter (before : Text) : Text → Text
  | [] => []
  | c :: cs => lowerBetween before c cs ++ lowerAfter (c :: before) cs

/-- The lowercase form of a text. -/
def lower (t : Text) : Text :=
  lowerAfter [] t

end Text

end CardQuery
