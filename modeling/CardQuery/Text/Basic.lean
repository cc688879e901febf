/-!
# Text

Query text is a list of characters. Positions in it are counted in bytes of its UTF-8 form, so
this module holds the byte width of a text and the operations that cut at byte positions:
`width`, `takeWidth?`, `splitAtWidth?`. A cut inside a character does not exist, and both
cutting functions say so with `none`.
-/

set_option autoImplicit false

namespace CardQuery

/-- Query text, as the list of its characters. -/
abbrev Text := List Char

/-- The greatest byte position. Positions are numbers of 32 bits. -/
def maxOffset : Nat :=
  4294967295

namespace Text

/-! ## Byte positions -/

/-- The number of bytes a text takes in UTF-8. -/
def width : Text → Nat
  | [] => 0
  | c :: cs => c.utf8Size + width cs

@[simp] theorem width_nil : width [] = 0 := rfl

@[simp] theorem width_cons (c : Char) (cs : Text) :
    width (c :: cs) = c.utf8Size + width cs := rfl

theorem width_append (s t : Text) : width (s ++ t) = width s + width t := by
  induction s with
  | nil => simp
  | cons c cs ih => simp [ih, Nat.add_assoc]

/-- The two parts of a text around byte `n`, or nothing when `n` is past the end or inside a
character. -/
def splitAtWidth? : Nat → Text → Option (Text × Text)
  | 0, t => some ([], t)
  | _ + 1, [] => none
  | n + 1, c :: cs =>
    if c.utf8Size ≤ n + 1 then
      (splitAtWidth? (n + 1 - c.utf8Size) cs).map fun (before, after) => (c :: before, after)
    else none

/-- The first `n` bytes of a text, or nothing when they do not end on a character. -/
def takeWidth? (n : Nat) (t : Text) : Option Text :=
  (splitAtWidth? n t).map Prod.fst

/-- Cutting a text loses nothing, and the first part is as wide as asked. -/
theorem splitAtWidth?_eq_some {n : Nat} {t before after : Text}
    (h : splitAtWidth? n t = some (before, after)) : before ++ after = t ∧ width before = n := by
  induction t generalizing n before with
  | nil =>
    cases n with
    | zero =>
      simp only [splitAtWidth?, Option.some.injEq, Prod.mk.injEq] at h
      simp [← h.1, ← h.2]
    | succ n => simp [splitAtWidth?] at h
  | cons c cs ih =>
    cases n with
    | zero =>
      simp only [splitAtWidth?, Option.some.injEq, Prod.mk.injEq] at h
      simp [← h.1, ← h.2]
    | succ n =>
      by_cases hc : c.utf8Size ≤ n + 1
      · simp only [splitAtWidth?, hc, if_true, Option.map_eq_some_iff] at h
        obtain ⟨⟨b, a⟩, hsplit, heq⟩ := h
        simp only [Prod.mk.injEq] at heq
        obtain ⟨rfl, rfl⟩ := heq
        obtain ⟨happ, hwidth⟩ := ih hsplit
        exact ⟨by simp [happ], by simp only [width_cons, hwidth]; omega⟩
      · simp [splitAtWidth?, hc] at h

/-- Cutting where the first part ends gives the two parts back. -/
theorem splitAtWidth?_append (before after : Text) :
    splitAtWidth? before.width (before ++ after) = some (before, after) := by
  induction before with
  | nil => simp [splitAtWidth?]
  | cons c cs ih =>
    obtain ⟨n, hn⟩ : ∃ n, c.utf8Size + width cs = n + 1 :=
      ⟨c.utf8Size + width cs - 1, by have := c.utf8Size_pos; omega⟩
    have hrest : n + 1 - c.utf8Size = width cs := by omega
    have hfits : c.utf8Size ≤ n + 1 := by omega
    rw [width_cons, hn, List.cons_append, splitAtWidth?, if_pos hfits, hrest, ih]
    rfl

/-! ## Letters -/

/-- A text with the letters A to Z made small; every other character is kept. -/
def asciiLower (t : Text) : Text :=
  t.map Char.toLower

@[simp] theorem asciiLower_append (s t : Text) :
    asciiLower (s ++ t) = asciiLower s ++ asciiLower t := by
  simp [asciiLower]

/-- Whether `needle` stands somewhere in a text. -/
def contains (needle : Text) : Text → Bool
  | [] => needle.isEmpty
  | c :: cs => needle.isPrefixOf (c :: cs) || contains needle cs

/-- Texts joined with `separator` between neighbours. -/
def join (separator : Text) : List Text → Text
  | [] => []
  | [t] => t
  | t :: u :: ts => t ++ separator ++ join separator (u :: ts)

end Text

end CardQuery
