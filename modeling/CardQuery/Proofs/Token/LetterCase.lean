import CardQuery.Proofs.Tree.Respelling
import CardQuery.Token.Scanner
import Mathlib

/-!
# Letter case of tokens

A letter stays a letter when it is made small, and no other character changes. Reading tokens asks
nothing of a character that tells one letter from another: a letter goes on with a word and with a
literal, and starts a word. Only the spellings of keywords look at letters, and they compare the
text in small letters.

Main statement: the tokens of a text in small letters are its tokens in small letters
(`tokenize_asciiLower`).
-/

set_option autoImplicit false

namespace CardQuery

/-! ## Letters -/

/-- What is the same for all letters does not depend on letter case. -/
theorem apply_toLower {α : Type} {f : Char → α} {v : α} (h : ∀ c, c.isAlpha = true → f c = v)
    (c : Char) : f c.toLower = f c := by
  by_cases hupper : c.isUpper = true
  · have hletter : c.isAlpha = true := by simp [Char.isAlpha, hupper]
    have hsmall : c.toLower.isAlpha = true := by rw [Char.isAlpha_toLower_eq_isAlpha, hletter]
    rw [h _ hletter, h _ hsmall]
  · rw [Char.toLower_eq_of_not_isUpper hupper]

/-- The characters that a token, a literal or a line is told by. -/
def markChars : List Char :=
  ['(', ')', '"', '/', '-', ':', '=', '<', '>', '!', '\\', '\n']

section Letter

variable {c : Char} (h : c.isAlpha = true)
include h

/-- Only the letters A to Z and a to z count as letters. -/
theorem toNat_of_isAlpha : (65 ≤ c.toNat ∧ c.toNat ≤ 90) ∨ (97 ≤ c.toNat ∧ c.toNat ≤ 122) := by
  simpa [Char.isAlpha, Char.isUpper, Char.isLower, UInt32.le_iff_toNat_le] using h

theorem isBlank_of_isAlpha : isBlank c = false := by
  have hletter := toNat_of_isAlpha h
  simp only [isBlank, blankRuns, List.any_cons, List.any_nil, Bool.or_false,
    Bool.or_eq_false_iff, Bool.and_eq_false_iff, decide_eq_false_iff_not]
  omega

theorem utf8Size_of_isAlpha : c.utf8Size = 1 := by
  have hletter := toNat_of_isAlpha h
  have hascii : c.toNat ≤ 127 := by omega
  exact Char.utf8Size_eq_one_iff.2 (UInt32.le_iff_toNat_le.2 hascii)

theorem ne_of_mem_markChars : ∀ d ∈ markChars, c ≠ d := by
  rintro d hd rfl
  have hnone : markChars.all (fun d => !d.isAlpha) = true := by decide
  simpa [h] using List.all_eq_true.1 hnone c hd

theorem start_of_isAlpha : Scan.start c = .word := by
  have hmarks := ne_of_mem_markChars h
  unfold Scan.start
  rw [isBlank_of_isAlpha h]
  split <;> simp_all [markChars]

theorem isWordChar_of_isAlpha : isWordChar c = true := by
  have hmarks := ne_of_mem_markChars h
  simp_all [isWordChar, markChars, isBlank_of_isAlpha h]

end Letter

@[simp] theorem isBlank_toLower (c : Char) : isBlank c.toLower = isBlank c :=
  apply_toLower (fun _ h => isBlank_of_isAlpha h) c

theorem utf8Size_toLower (c : Char) : c.toLower.utf8Size = c.utf8Size :=
  apply_toLower (fun _ h => utf8Size_of_isAlpha h) c

@[simp] theorem isWordChar_toLower (c : Char) : isWordChar c.toLower = isWordChar c :=
  apply_toLower (fun _ h => isWordChar_of_isAlpha h) c

@[simp] theorem start_toLower (c : Char) : Scan.start c.toLower = Scan.start c :=
  apply_toLower (fun _ h => start_of_isAlpha h) c

/-- A mark is not the small form of another character. -/
theorem toLower_eq_iff {d : Char} (hd : d ∈ markChars) (c : Char) : c.toLower = d ↔ c = d := by
  have hnone : ∀ c : Char, c.isAlpha = true → (c = d) = False :=
    fun _ h => eq_false (ne_of_mem_markChars h d hd)
  exact iff_of_eq (apply_toLower hnone c)

@[simp] theorem toLower_eq_mark_iff (c : Char) (kind : LiteralKind) :
    c.toLower = kind.mark ↔ c = kind.mark :=
  toLower_eq_iff (by cases kind <;> decide) c

@[simp] theorem toLower_eq_equals_iff (c : Char) : c.toLower = '=' ↔ c = '=' :=
  toLower_eq_iff (by decide) c

@[simp] theorem toLower_eq_backslash_iff (c : Char) : c.toLower = '\\' ↔ c = '\\' :=
  toLower_eq_iff (by decide) c

@[simp] theorem toLower_eq_newline_iff (c : Char) : c.toLower = '\n' ↔ c = '\n' :=
  toLower_eq_iff (by decide) c

/-! ## Texts in small letters -/

namespace Text

@[simp] theorem asciiLower_asciiLower (t : Text) : t.asciiLower.asciiLower = t.asciiLower := by
  simp [asciiLower]

@[simp] theorem width_asciiLower (t : Text) : t.asciiLower.width = t.width := by
  induction t with
  | nil => rfl
  | cons c cs ih => simpa [asciiLower, utf8Size_toLower] using ih

end Text

theorem any_newline_asciiLower (t : Text) :
    t.asciiLower.any (· = '\n') = t.any (· = '\n') := by
  simp [Text.asciiLower, Function.comp_def]

theorem isClosedLiteral_asciiLower (kind : LiteralKind) (t : Text) :
    isClosedLiteral kind t.asciiLower = isClosedLiteral kind t := by
  cases t with
  | nil => rfl
  | cons c rest =>
      have hlast : (rest.map Char.toLower).getLast? = some kind.mark
          ↔ rest.getLast? = some kind.mark := by
        simp
      simp only [Text.asciiLower, List.map_cons, isClosedLiteral, toLower_eq_mark_iff, hlast,
        ← List.map_dropLast, ← List.map_reverse, List.takeWhile_map, List.length_map,
        Function.comp_def, toLower_eq_backslash_iff]

/-! ## Tokens in small letters -/

/-- Every token in small letters. -/
def Respelling.lower : Respelling where
  spell _ t := t.asciiLower
  spell_keyword _ _ := rfl
  isArgument_spell t := by
    rw [isArgument, isArgument, aliasGroup?_congr t.asciiLower_asciiLower]
  newline_spell := any_newline_asciiLower
  isClosedLiteral_spell mark _ t := isClosedLiteral_asciiLower mark t
  spell_eq_nil _ _ := List.map_eq_nil_iff

/-- A token in small letters. -/
abbrev Token.asciiLower (t : Token) : Token :=
  Respelling.lower.token t

theorem tokensText_map_asciiLower (ts : List Token) :
    tokensText (ts.map Token.asciiLower) = (tokensText ts).asciiLower := by
  induction ts with
  | nil => rfl
  | cons t ts ih => simp [ih, Respelling.token, Respelling.lower]

namespace Scan

/-- A character goes on with a token just when its small form does. -/
theorem next_toLower (s : Scan) (c : Char) : s.next c.toLower = s.next c := by
  cases s <;> simp [next]

theorem tokens_asciiLower (s : Scan) (read : Text) :
    s.tokens read.asciiLower = (s.tokens read).map Token.asciiLower := by
  cases s with
  | escape kind => simp [tokens, Respelling.token, Respelling.lower, Text.asciiLower]
  | word => simp [tokens, Respelling.token, Respelling.lower, wordKind]
  | _ => rfl

theorem run_asciiLower (s : Scan) (read t : Text) :
    s.run read.asciiLower t.asciiLower = (s.run read t).map Token.asciiLower := by
  induction t generalizing s read with
  | nil => exact s.tokens_asciiLower read
  | cons c cs ih =>
      show run s read.asciiLower (c.toLower :: Text.asciiLower cs) = _
      rw [run, run, next_toLower]
      cases s.next c with
      | some s' => simpa [Text.asciiLower] using ih s' (read ++ [c])
      | none =>
          rw [start_toLower, tokens_asciiLower, List.map_append, ← ih]
          rfl

end Scan

/-- **The tokens of a text in small letters are its tokens in small letters.** -/
theorem tokenize_asciiLower (t : Text) :
    tokenize t.asciiLower = (tokenize t).map Token.asciiLower := by
  cases t with
  | nil => rfl
  | cons c cs =>
      show Scan.run (Scan.start c.toLower) _ _ = _
      rw [start_toLower]
      exact Scan.run_asciiLower (Scan.start c) [c] cs

end CardQuery
