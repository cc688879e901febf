import CardQuery.Text.LineIndex
import Mathlib.Data.List.DropRight

/-!
# Lines and columns of bytes

A line index is made character by character, and places in a text are counted in bytes. No character
but the newline has the byte of a newline in its form, so the index is what a walk over the bytes
would make of them: a line starts behind each newline byte, and the lines are what stands between
these bytes. The starts increase, so the last of them that is not behind a byte belongs to the line
of that byte.

A place is turned into a byte by a sum of 32 bits. In a text whose bytes have numbers of 32 bits
this sum is the exact one for every place in a line, and only a column behind the end of its line
can lead beyond them.

Main statement: lines and columns are counted in newline bytes and bytes, and turning bytes into
them and back loses nothing (`LineIndex.describes_ofText`).
-/

set_option autoImplicit false

namespace CardQuery

/-! ## Bytes -/

namespace Text

/-- The bytes of a text in UTF-8. -/
def bytes (t : Text) : List UInt8 :=
  t.flatMap String.utf8EncodeChar

/-- The byte of a newline. -/
def newline : UInt8 :=
  10

/-- How many newlines there are among the first `n` bytes of a text. -/
def newlinesBefore (t : Text) (n : Nat) : Nat :=
  (t.bytes.take n).count newline

/-- The bytes of each line of a text, without the newlines between the lines. -/
def byteLines (t : Text) : List (List UInt8) :=
  t.bytes.splitOn newline

/-- How many bytes stand before a line: those of the lines before it, and a newline behind each. -/
def lineStart (t : Text) (line : Nat) : Nat :=
  ((t.byteLines.take line).flatMap fun l => l ++ [newline]).length

@[simp] theorem bytes_nil : bytes [] = [] := rfl

@[simp] theorem bytes_cons (c : Char) (cs : Text) :
    bytes (c :: cs) = String.utf8EncodeChar c ++ bytes cs := rfl

theorem bytes_append (s t : Text) : bytes (s ++ t) = s.bytes ++ t.bytes :=
  List.flatMap_append

@[simp] theorem length_bytes (t : Text) : t.bytes.length = t.width := by
  induction t with
  | nil => rfl
  | cons c cs ih => simp [ih]

/-- Only the newline has the byte of a newline in its form: a character of one byte is that byte,
and the bytes of any other begin with a one. -/
theorem newline_notMem_utf8EncodeChar {c : Char} (h : c ≠ '\n') :
    newline ∉ String.utf8EncodeChar c := by
  have hval : c.val.toNat ≠ 10 := fun hval => h (Char.ext (UInt32.toNat_inj.1 hval))
  have hten : newline.toNat = 10 := rfl
  intro hmem
  simp only [String.utf8EncodeChar] at hmem
  split_ifs at hmem <;>
    simp only [List.mem_cons, List.not_mem_nil, or_false, ← UInt8.toNat_inj, UInt8.toNat_ofNat',
      hten] at hmem <;>
    omega

theorem newlinesBefore_mono (t : Text) {m n : Nat} (h : m ≤ n) :
    t.newlinesBefore m ≤ t.newlinesBefore n :=
  (List.take_sublist_take_left h).count_le newline

theorem newlinesBefore_add (t : Text) (m n : Nat) :
    t.newlinesBefore (m + n) = t.newlinesBefore m + ((t.bytes.drop m).take n).count newline := by
  rw [newlinesBefore, newlinesBefore, List.take_add, List.count_append]

end Text

/-- Whether a place comes before another. -/
def Position.Precedes (p q : Position) : Prop :=
  p.line < q.line ∨ p.line = q.line ∧ p.column < q.column

/-! ## Where lines start -/

namespace LineIndex

open Text (newline)

/-- The offsets just behind the newlines among bytes of which the first is at `offset`. -/
def byteStarts (offset : Nat) : List UInt8 → List Nat
  | [] => []
  | b :: bs =>
    if b = newline then (offset + 1) :: byteStarts (offset + 1) bs else byteStarts (offset + 1) bs

theorem byteStarts_append_of_notMem {xs : List UInt8} (h : newline ∉ xs) (offset : Nat)
    (ys : List UInt8) : byteStarts offset (xs ++ ys) = byteStarts (offset + xs.length) ys := by
  induction xs generalizing offset with
  | nil => rfl
  | cons x xs ih =>
      obtain ⟨hx, hxs⟩ : newline ≠ x ∧ newline ∉ xs := by simpa using h
      rw [List.cons_append, byteStarts, if_neg (Ne.symm hx), ih hxs, List.length_cons]
      congr 1
      omega

/-- The lines of a text start where they start in its bytes. -/
theorem startsAfter_eq (offset : Nat) (t : Text) :
    startsAfter offset t = byteStarts offset t.bytes := by
  induction t generalizing offset with
  | nil => rfl
  | cons c cs ih =>
      rw [startsAfter, Text.bytes_cons]
      by_cases hc : c = '\n'
      · subst hc
        show _ = byteStarts offset (newline :: Text.bytes cs)
        rw [if_pos rfl, byteStarts, if_pos rfl, ih]
        rfl
      · rw [if_neg hc, byteStarts_append_of_notMem (Text.newline_notMem_utf8EncodeChar hc), ih,
          String.length_utf8EncodeChar]

theorem starts_ofText (t : Text) : (ofText t).starts = 0 :: byteStarts 0 t.bytes := by
  rw [ofText, startsAfter_eq]

/-- Right before the start of a line there is a newline. -/
theorem exists_of_mem_byteStarts {bs : List UInt8} {offset s : Nat}
    (h : s ∈ byteStarts offset bs) : ∃ i, bs[i]? = some newline ∧ s = offset + (i + 1) := by
  induction bs generalizing offset with
  | nil => cases h
  | cons b bs ih =>
      have hrest : s ∈ byteStarts (offset + 1) bs →
          ∃ i, (b :: bs)[i]? = some newline ∧ s = offset + (i + 1) := by
        intro hmem
        obtain ⟨i, hi, hs⟩ := ih hmem
        exact ⟨i + 1, by rw [List.getElem?_cons_succ, hi], by omega⟩
      rw [byteStarts] at h
      split at h
      · next hb =>
          rcases List.mem_cons.1 h with rfl | h
          · exact ⟨0, by rw [List.getElem?_cons_zero, hb], rfl⟩
          · exact hrest h
      · exact hrest h

theorem lt_of_mem_byteStarts {bs : List UInt8} {offset s : Nat} (h : s ∈ byteStarts offset bs) :
    offset < s := by
  obtain ⟨i, -, hs⟩ := exists_of_mem_byteStarts h
  omega

/-- The starts of lines increase, so they can be searched by halving. -/
theorem pairwise_byteStarts (offset : Nat) (bs : List UInt8) :
    (offset :: byteStarts offset bs).Pairwise (· < ·) := by
  induction bs generalizing offset with
  | nil => simp [byteStarts]
  | cons b bs ih =>
      refine List.pairwise_cons.2 ⟨fun s hs => lt_of_mem_byteStarts hs, ?_⟩
      rw [byteStarts]
      split
      · exact ih (offset + 1)
      · exact (List.pairwise_cons.1 (ih (offset + 1))).2

/-- As many lines start behind the first byte and not behind byte `n` as there are newlines among
the bytes before it. -/
theorem length_takeWhile_byteStarts (offset n : Nat) (bs : List UInt8) :
    ((byteStarts offset bs).takeWhile (· ≤ offset + n)).length = (bs.take n).count newline := by
  induction bs generalizing offset n with
  | nil => simp [byteStarts]
  | cons b bs ih =>
      cases n with
      | zero =>
          cases hstarts : byteStarts offset (b :: bs) with
          | nil => rfl
          | cons s rest =>
              have hmem : s ∈ byteStarts offset (b :: bs) := hstarts ▸ List.mem_cons_self
              have hs : offset < s := lt_of_mem_byteStarts hmem
              rw [List.takeWhile_cons_of_neg (by simpa using hs)]
              rfl
      | succ n =>
          have hrest := ih (offset + 1) n
          rw [Nat.add_right_comm, Nat.add_assoc] at hrest
          rw [byteStarts, List.take_succ_cons]
          by_cases hb : b = newline
          · rw [if_pos hb, List.takeWhile_cons_of_pos (by simp), List.length_cons, hrest, hb,
              List.count_cons_self]
          · rw [if_neg hb, hrest, List.count_cons_of_ne hb]

/-- A line goes from its start to the next newline. -/
theorem map_byteStarts (offset : Nat) (bs : List UInt8) :
    (offset :: byteStarts offset bs).map
      (fun s => (bs.drop (s - offset)).takeWhile (· != newline)) = bs.splitOn newline := by
  induction bs generalizing offset with
  | nil => simp [byteStarts]
  | cons b bs ih =>
      -- behind the first byte, one byte less is left out
      have hrest : (byteStarts (offset + 1) bs).map
          (fun s => ((b :: bs).drop (s - offset)).takeWhile (· != newline))
          = (byteStarts (offset + 1) bs).map
              fun s => (bs.drop (s - (offset + 1))).takeWhile (· != newline) := by
        refine List.map_congr_left fun s hs => ?_
        have hlt := lt_of_mem_byteStarts hs
        have hdrop : s - offset = s - (offset + 1) + 1 := by omega
        rw [hdrop, List.drop_succ_cons]
      have hlines := ih (offset + 1)
      rw [List.map_cons, Nat.sub_self, List.drop_zero] at hlines
      rw [List.splitOn, List.splitOnP_cons_eq_if_modifyHead, ← List.splitOn, byteStarts]
      by_cases hb : b = newline
      · have hfirst : offset + 1 - offset = 1 := by omega
        rw [if_pos hb, if_pos (by simpa using hb), List.map_cons, List.map_cons, hrest, ← hlines,
          Nat.sub_self, hfirst, hb]
        simp
      · rw [if_neg hb, if_neg (by simpa using hb), List.map_cons, hrest, ← hlines, Nat.sub_self]
        simp [hb]

/-- A line starts behind the lines before it. -/
theorem byteStarts_getElem? {offset line s : Nat} {bs : List UInt8}
    (h : (offset :: byteStarts offset bs)[line]? = some s) :
    s = offset + (((bs.splitOn newline).take line).flatMap fun l => l ++ [newline]).length := by
  induction bs generalizing offset line with
  | nil =>
      cases line with
      | zero => exact (Option.some.inj h).symm
      | succ line => simp [byteStarts] at h
  | cons b bs ih =>
      cases line with
      | zero => exact (Option.some.inj h).symm
      | succ line =>
          rw [List.getElem?_cons_succ, byteStarts] at h
          rw [List.splitOn, List.splitOnP_cons_eq_if_modifyHead, ← List.splitOn]
          by_cases hb : b = newline
          · -- the first line is empty
            rw [if_pos hb] at h
            have hs := ih h
            rw [if_pos (by simpa using hb), List.take_succ_cons, List.flatMap_cons,
              List.length_append, List.nil_append, List.length_singleton]
            omega
          · -- the first line has one byte more than without the first byte
            rw [if_neg hb, ← List.getElem?_cons_succ (a := offset + 1)] at h
            have hs := ih h
            obtain ⟨l, ls, hlines⟩ := List.exists_cons_of_ne_nil (List.splitOn_ne_nil newline bs)
            rw [hlines, List.take_succ_cons, List.flatMap_cons, List.length_append] at hs
            rw [if_neg (by simpa using hb), hlines, List.modifyHead_cons, List.take_succ_cons,
              List.flatMap_cons, List.length_append, List.cons_append, List.length_cons]
            omega

theorem map_starts (t : Text) :
    (ofText t).starts.map (fun s => (t.bytes.drop s).takeWhile (· != newline)) = t.byteLines := by
  rw [starts_ofText, Text.byteLines, ← map_byteStarts 0 t.bytes]
  rfl

/-! ## From bytes to lines and back -/

variable {t : Text} {line start : Nat}

theorem length_takeWhile_starts (t : Text) (n : Nat) :
    ((ofText t).starts.takeWhile (· ≤ n)).length = t.newlinesBefore n + 1 := by
  have hlength := length_takeWhile_byteStarts 0 n t.bytes
  rw [Nat.zero_add] at hlength
  rw [starts_ofText, List.takeWhile_cons_of_pos (by simp), List.length_cons, hlength,
    Text.newlinesBefore]

theorem line_position (t : Text) (n : Nat) :
    ((ofText t).position n).line = t.newlinesBefore (min n t.width) := by
  show ((ofText t).starts.takeWhile (· ≤ min n t.width)).length - 1 = _
  rw [length_takeWhile_starts, Nat.add_sub_cancel]

/-- The line of a byte starts as many bytes before it as its column says. -/
theorem exists_start (t : Text) (n : Nat) :
    ∃ start, (ofText t).starts[((ofText t).position n).line]? = some start ∧
      start + ((ofText t).position n).column = min n t.width := by
  -- the first line starts at 0, so some line starts at the byte or before it
  have hne : (ofText t).starts.takeWhile (· ≤ min n t.width) ≠ [] := by
    simp [ofText]
  obtain ⟨begun, last, hbegun⟩ := (List.eq_nil_or_concat' _).resolve_left hne
  have hmem : last ∈ (ofText t).starts.takeWhile (· ≤ min n t.width) := by
    rw [hbegun]
    exact List.mem_append_right _ List.mem_cons_self
  have hle : last ≤ min n t.width :=
    of_decide_eq_true (List.all_eq_true.1 List.all_takeWhile last hmem)
  obtain ⟨later, hlater⟩ := List.takeWhile_prefix (l := (ofText t).starts) (· ≤ min n t.width)
  refine ⟨last, ?_, ?_⟩
  · have hline : ((ofText t).position n).line = begun.length := by
      show ((ofText t).starts.takeWhile (· ≤ min n t.width)).length - 1 = _
      rw [hbegun, List.length_append]
      rfl
    rw [hline, ← hlater, hbegun]
    simp
  · have hcolumn : ((ofText t).position n).column = min n t.width - last := by
      show min n t.width - ((ofText t).starts.takeWhile (· ≤ min n t.width)).getLastD 0 = _
      rw [hbegun]
      simp
    rw [hcolumn]
    omega

/-- In a list that increases, what is at most the entry of number `k` goes up to that entry. -/
theorem length_takeWhile_le_of_pairwise {l : List Nat} (h : l.Pairwise (· < ·)) {k s : Nat}
    (hs : l[k]? = some s) : (l.takeWhile (· ≤ s)).length = k + 1 := by
  induction l generalizing k with
  | nil => cases hs
  | cons a l ih =>
      obtain ⟨ha, hl⟩ := List.pairwise_cons.1 h
      cases k with
      | zero =>
          obtain rfl : a = s := by simpa using hs
          have hnone : l.takeWhile (· ≤ a) = [] := by
            cases l with
            | nil => rfl
            | cons b l => exact List.takeWhile_cons_of_neg (by simpa using ha b List.mem_cons_self)
          rw [List.takeWhile_cons_of_pos (by simp), hnone]
          rfl
      | succ k =>
          rw [List.getElem?_cons_succ] at hs
          have hlt : a < s := ha s (List.mem_of_getElem? hs)
          rw [List.takeWhile_cons_of_pos (by simpa using Nat.le_of_lt hlt), List.length_cons,
            ih hl hs]

/-- The number of a line is that of the newlines before its start. -/
theorem newlinesBefore_start (h : (ofText t).starts[line]? = some start) :
    t.newlinesBefore start = line := by
  have hincrease : (ofText t).starts.Pairwise (· < ·) := by
    rw [starts_ofText]
    exact pairwise_byteStarts 0 t.bytes
  have hlength := length_takeWhile_le_of_pairwise hincrease h
  rw [length_takeWhile_starts] at hlength
  exact Nat.succ.inj hlength

/-- A line starts in the text, and behind a newline unless it is the first. -/
theorem start_cases (h : (ofText t).starts[line]? = some start) :
    start = 0 ∨ ∃ i, t.bytes[i]? = some newline ∧ start = i + 1 := by
  have hmem := List.mem_of_getElem? h
  rw [starts_ofText] at hmem
  rcases List.mem_cons.1 hmem with rfl | hmem
  · exact Or.inl rfl
  · obtain ⟨i, hi, hs⟩ := exists_of_mem_byteStarts hmem
    exact Or.inr ⟨i, hi, by omega⟩

theorem start_le_width (h : (ofText t).starts[line]? = some start) : start ≤ t.width := by
  rcases start_cases h with rfl | ⟨i, hi, rfl⟩
  · exact Nat.zero_le _
  · obtain ⟨hlt, -⟩ := List.getElem?_eq_some_iff.1 hi
    rwa [Text.length_bytes] at hlt

/-- From the start of its line to a byte there is no newline. -/
theorem newline_notMem_of_position {n : Nat}
    (h : (ofText t).starts[((ofText t).position n).line]? = some start)
    (hcolumn : start + ((ofText t).position n).column = min n t.width) :
    newline ∉ (t.bytes.drop start).take ((ofText t).position n).column := by
  have hcount := newlinesBefore_start h
  rw [line_position, ← hcolumn, Text.newlinesBefore_add] at hcount
  exact List.count_eq_zero.1 (by omega)

/-- The byte so many bytes behind the start of a line has that line and that column, when there is
no newline before it. -/
theorem position_add {column : Nat} (h : (ofText t).starts[line]? = some start)
    (hwidth : start + column ≤ t.width) (hfree : newline ∉ (t.bytes.drop start).take column) :
    (ofText t).position (start + column) = ⟨line, column⟩ := by
  have hline : ((ofText t).position (start + column)).line = line := by
    rw [line_position, Nat.min_eq_left hwidth, Text.newlinesBefore_add, newlinesBefore_start h,
      List.count_eq_zero.2 hfree, Nat.add_zero]
  obtain ⟨start', hstart', hcolumn⟩ := exists_start t (start + column)
  rw [hline, h] at hstart'
  obtain rfl : start = start' := Option.some.inj hstart'
  rw [Nat.min_eq_left hwidth] at hcolumn
  have hcolumns : ((ofText t).position (start + column)).column = column :=
    Nat.add_left_cancel hcolumn
  calc (ofText t).position (start + column)
      = ⟨((ofText t).position (start + column)).line,
          ((ofText t).position (start + column)).column⟩ := rfl
    _ = ⟨line, column⟩ := by rw [hline, hcolumns]

theorem newline_notMem_take_iff {bs : List UInt8} {n : Nat} (h : n ≤ bs.length) :
    newline ∉ bs.take n ↔ n ≤ (bs.takeWhile (· != newline)).length := by
  induction bs generalizing n with
  | nil =>
      obtain rfl : n = 0 := Nat.le_zero.1 h
      simp
  | cons b bs ih =>
      cases n with
      | zero => simp
      | succ n =>
          rw [List.take_succ_cons, List.mem_cons, not_or, ih (Nat.le_of_succ_le_succ h)]
          by_cases hb : b = newline
          · simp [hb]
          · rw [List.takeWhile_cons_of_pos (by simpa using hb), List.length_cons,
              Nat.add_le_add_iff_right]
            exact and_iff_right (Ne.symm hb)

/-- The bytes of a line are those from its start to the next newline. -/
theorem byteLines_getElem? (h : (ofText t).starts[line]? = some start) :
    t.byteLines[line]? = some ((t.bytes.drop start).takeWhile (· != newline)) := by
  rw [← map_starts, List.getElem?_map, h, Option.map_some]

theorem lineCount_ofText (t : Text) : (ofText t).lineCount = t.byteLines.length := by
  rw [lineCount, ← map_starts, List.length_map]

/-- The column of a byte is the number of bytes behind the last newline before it. -/
theorem column_position (t : Text) (n : Nat) : ((ofText t).position n).column
    = ((t.bytes.take (min n t.width)).rtakeWhile (· != newline)).length := by
  obtain ⟨start, hstart, hcolumn⟩ := exists_start t n
  have hfree := newline_notMem_of_position hstart hcolumn
  set column := ((ofText t).position n).column with hcolumns
  -- what stands before the line ends with a newline, unless it is nothing
  have hbefore : (t.bytes.take start).rtakeWhile (· != newline) = [] := by
    rcases start_cases hstart with rfl | ⟨i, hi, rfl⟩
    · rfl
    · rw [List.take_add_one, hi, Option.toList_some]
      exact List.rtakeWhile_concat_neg _ _ _ (by simp)
  have hline : ∀ b ∈ (t.bytes.drop start).take column, (b != newline) = true := by
    intro b hb
    rw [bne_iff_ne]
    exact fun hnewline => hfree (hnewline ▸ hb)
  have hlast : (t.bytes.take (start + column)).rtakeWhile (· != newline)
      = (t.bytes.drop start).take column := by
    rw [List.rtakeWhile, List.reverse_eq_nil_iff] at hbefore
    rw [List.take_add, List.rtakeWhile, List.reverse_append,
      List.takeWhile_append_of_pos (by simpa using hline), hbefore, List.append_nil,
      List.reverse_reverse]
  rw [← hcolumn, hlast, List.length_take, List.length_drop, Text.length_bytes]
  omega

theorem position_precedes {m n : Nat} (h : m < n) (hn : n ≤ t.width) :
    ((ofText t).position m).Precedes ((ofText t).position n) := by
  have hle : ((ofText t).position m).line ≤ ((ofText t).position n).line := by
    rw [line_position, line_position]
    exact t.newlinesBefore_mono (by omega)
  rcases Nat.lt_or_eq_of_le hle with hlt | heq
  · exact Or.inl hlt
  · -- in one line the columns are counted from one start
    obtain ⟨start, hstart, hm⟩ := exists_start t m
    obtain ⟨start', hstart', hn'⟩ := exists_start t n
    rw [heq, hstart'] at hstart
    obtain rfl : start' = start := Option.some.inj hstart
    exact Or.inr ⟨heq, by omega⟩

theorem position_of_width_le {n : Nat} (h : t.width ≤ n) :
    (ofText t).position n = (ofText t).position t.width := by
  have hmin : min n (ofText t).width = min t.width (ofText t).width := by
    show min n t.width = min t.width t.width
    omega
  rw [position, position, hmin]

/-! ### Places as bytes -/

theorem lineStart_eq (h : (ofText t).starts[line]? = some start) : t.lineStart line = start := by
  rw [starts_ofText] at h
  rw [Text.lineStart, Text.byteLines, byteStarts_getElem? h, Nat.zero_add]

theorem offset?_of_start {p : Position} (h : (ofText t).starts[p.line]? = some start) :
    (ofText t).offset? p = some (min (addOffset start p.column) t.width) := by
  rw [offset?, h, Option.map_some]
  rfl

theorem overflows_of_start {index : LineIndex} {p : Position}
    (h : index.starts[p.line]? = some start) :
    index.overflows p = decide (maxOffset < start + p.column) := by
  rw [overflows, h, Option.any_some]

/-- In a text whose bytes have numbers of 32 bits, no place up to the end of the text overflows. -/
theorem overflows_of_le {p : Position} (hfits : t.width ≤ maxOffset)
    (h : (ofText t).starts[p.line]? = some start) (hwidth : start + p.column ≤ t.width) :
    (ofText t).overflows p = false := by
  have hle : ¬ maxOffset < start + p.column := by omega
  rw [overflows_of_start h, decide_eq_false hle]

/-- Such a place leads to the byte that it names. -/
theorem offset?_of_le {p : Position} (hfits : t.width ≤ maxOffset)
    (h : (ofText t).starts[p.line]? = some start) (hwidth : start + p.column ≤ t.width) :
    (ofText t).offset? p = some (start + p.column) := by
  rw [offset?_of_start h, addOffset_of_le (Nat.le_trans hwidth hfits), Nat.min_eq_left hwidth]

theorem overflows_position (hfits : t.width ≤ maxOffset) (n : Nat) :
    (ofText t).overflows ((ofText t).position n) = false := by
  obtain ⟨start, hstart, hcolumn⟩ := exists_start t n
  exact overflows_of_le hfits hstart (by omega)

theorem offset?_position (hfits : t.width ≤ maxOffset) (n : Nat) :
    (ofText t).offset? ((ofText t).position n) = some (min n t.width) := by
  obtain ⟨start, hstart, hcolumn⟩ := exists_start t n
  calc (ofText t).offset? ((ofText t).position n)
    _ = some (start + ((ofText t).position n).column) := offset?_of_le hfits hstart (by omega)
    _ = some (min n t.width) := by rw [hcolumn]

theorem offset?_eq_none_iff (index : LineIndex) (p : Position) :
    index.offset? p = none ↔ index.lineCount ≤ p.line := by
  rw [offset?, Option.map_eq_none_iff, List.getElem?_eq_none_iff, lineCount]

/-- Every line has a start. -/
theorem exists_start_of_lt (h : line < (ofText t).lineCount) :
    ∃ start, (ofText t).starts[line]? = some start :=
  ⟨_, List.getElem?_eq_getElem h⟩

theorem overflows_iff (t : Text) (p : Position) :
    (ofText t).overflows p = true ↔
      p.line < (ofText t).lineCount ∧ maxOffset < t.lineStart p.line + p.column := by
  by_cases hline : p.line < (ofText t).lineCount
  · obtain ⟨start, hstart⟩ := exists_start_of_lt hline
    rw [overflows_of_start hstart, lineStart_eq hstart, decide_eq_true_iff]
    exact (and_iff_right hline).symm
  · have hnone : (ofText t).starts[p.line]? = none :=
      List.getElem?_eq_none_iff.2 (Nat.le_of_not_lt hline)
    rw [overflows, hnone]
    simp [hline]

theorem offset?_eq_some {p : Position} (h : p.line < (ofText t).lineCount) :
    (ofText t).offset? p
      = some (min (addOffset (t.lineStart p.line) p.column) t.width) := by
  obtain ⟨start, hstart⟩ := exists_start_of_lt h
  rw [offset?_of_start hstart, lineStart_eq hstart]

/-- A column that is in its line, or at the end of it, is in the text, and no newline stands before
it. -/
theorem exists_start_of_byteLines {p : Position} {l : List UInt8}
    (h : t.byteLines[p.line]? = some l) (hcolumn : p.column ≤ l.length) :
    ∃ start, (ofText t).starts[p.line]? = some start ∧ start + p.column ≤ t.width ∧
      newline ∉ (t.bytes.drop start).take p.column := by
  have hlt : p.line < (ofText t).lineCount := by
    obtain ⟨hlt, -⟩ := List.getElem?_eq_some_iff.1 h
    rwa [lineCount_ofText]
  obtain ⟨start, hstart⟩ := exists_start_of_lt hlt
  rw [byteLines_getElem? hstart] at h
  obtain rfl := Option.some.inj h
  have hdrop : p.column ≤ (t.bytes.drop start).length :=
    Nat.le_trans hcolumn (List.takeWhile_prefix _).length_le
  refine ⟨start, hstart, ?_, (newline_notMem_take_iff hdrop).2 hcolumn⟩
  have hle := start_le_width hstart
  rw [List.length_drop, Text.length_bytes] at hdrop
  omega

/-- A place is that of some byte when its column is in its line, or at the end of it. -/
theorem position_offset?_iff (hfits : t.width ≤ maxOffset) (p : Position) :
    ((ofText t).offset? p).map (ofText t).position = some p ↔
      ∃ l, t.byteLines[p.line]? = some l ∧ p.column ≤ l.length := by
  constructor
  · intro h
    obtain ⟨n, -, hn⟩ := Option.map_eq_some_iff.1 h
    obtain ⟨start, hstart, hcolumn⟩ := exists_start t n
    have hfree := newline_notMem_of_position hstart hcolumn
    rw [hn] at hstart hcolumn hfree
    refine ⟨_, byteLines_getElem? hstart, (newline_notMem_take_iff ?_).1 hfree⟩
    rw [List.length_drop, Text.length_bytes]
    omega
  · rintro ⟨l, hl, hcolumn⟩
    obtain ⟨start, hstart, hwidth, hfree⟩ := exists_start_of_byteLines hl hcolumn
    rw [offset?_of_le hfits hstart hwidth, Option.map_some, position_add hstart hwidth hfree]

/-! ## The main statement -/

/-- Whether an index has the lines and columns of a text, and turns bytes into them and back. A text
has an index when the number of its bytes has 32 bits; sums are exact in it as long as they stay in
the text. -/
structure Describes (index : LineIndex) (t : Text) : Prop where
  /-- The line of a byte is the number of newlines before it. Behind the end, the end counts. -/
  line : ∀ n, (index.position n).line = t.newlinesBefore (min n t.width)
  /-- Its column is the number of bytes behind the last of them. -/
  column : ∀ n, (index.position n).column
    = ((t.bytes.take (min n t.width)).rtakeWhile (· != newline)).length
  ordered : ∀ m n, m < n → n ≤ t.width → (index.position m).Precedes (index.position n)
  past_end : ∀ n, t.width ≤ n → index.position n = index.position t.width
  /-- The place of a byte leads back to it, and its sum has no more than 32 bits. -/
  offset_of_position : t.width ≤ maxOffset → ∀ n,
    index.offset? (index.position n) = some (min n t.width) ∧
      index.overflows (index.position n) = false
  lineCount : index.lineCount = t.byteLines.length
  no_offset_iff : ∀ p, index.offset? p = none ↔ index.lineCount ≤ p.line
  /-- Any column of a line is counted from its start in 32 bits, and cut to the end of the text. -/
  offset_of_line : ∀ p, p.line < index.lineCount →
    index.offset? p = some (min (addOffset (t.lineStart p.line) p.column) t.width)
  /-- A program that checks its sums stops just where this one has more than 32 bits. -/
  overflows_iff : ∀ p, index.overflows p = true ↔
    p.line < index.lineCount ∧ maxOffset < t.lineStart p.line + p.column
  /-- That does not happen in a line or at its end. -/
  no_overflow : t.width ≤ maxOffset → ∀ p l, t.byteLines[p.line]? = some l →
    p.column ≤ l.length → index.overflows p = false
  /-- A place comes back when its column is in its line or at the end of it, and only then. -/
  position_of_offset_iff : t.width ≤ maxOffset → ∀ p,
    (index.offset? p).map index.position = some p ↔
      ∃ l, t.byteLines[p.line]? = some l ∧ p.column ≤ l.length

/-- **The lines and columns of a text are those of its bytes.** -/
theorem describes_ofText (t : Text) : (ofText t).Describes t where
  line := line_position t
  column := column_position t
  ordered _ _ := position_precedes
  past_end _ := position_of_width_le
  offset_of_position hfits n := ⟨offset?_position hfits n, overflows_position hfits n⟩
  lineCount := lineCount_ofText t
  no_offset_iff := offset?_eq_none_iff (ofText t)
  offset_of_line _ := offset?_eq_some
  overflows_iff := overflows_iff t
  no_overflow hfits p l hl hcolumn := by
    obtain ⟨start, hstart, hwidth, -⟩ := exists_start_of_byteLines hl hcolumn
    exact overflows_of_le hfits hstart hwidth
  position_of_offset_iff := position_offset?_iff

/-- A character of two bytes and an empty line. The greatest column of the last line is a place
whose sum has more than 32 bits. -/
theorem describes_ofText_empty_line :
    let t : Text := "é\n\nb".toList
    let index := ofText t
    (3 < 4 ∧ 4 ≤ t.width ∧ (index.position 3).Precedes (index.position 4)) ∧
      (t.width ≤ 9 ∧ index.position 9 = index.position t.width) ∧
      (t.width ≤ maxOffset ∧ index.offset? (index.position 9) = some 5) ∧
      (t.byteLines[1]? = some [] ∧ (index.offset? ⟨1, 0⟩).map index.position = some ⟨1, 0⟩ ∧
        index.overflows ⟨1, 0⟩ = false) ∧
      2 < index.lineCount ∧ index.offset? ⟨2, maxOffset⟩ = some 3 ∧
        index.overflows ⟨2, maxOffset⟩ = true := by
  intro t index
  have hdescribes : index.Describes t := describes_ofText t
  have hwidth : t.width = 5 := by decide
  have hfits : t.width ≤ maxOffset := by decide
  have hline : t.byteLines[1]? = some [] := by decide
  have hlast : 2 < index.lineCount := by decide
  refine ⟨⟨by decide, by omega, hdescribes.ordered 3 4 (by decide) (by omega)⟩,
    ⟨by omega, hdescribes.past_end 9 (by omega)⟩, ⟨hfits, ?_⟩, ⟨hline, ?_, ?_⟩, hlast, ?_, ?_⟩
  · rw [(hdescribes.offset_of_position hfits 9).1, hwidth]
    rfl
  · exact (hdescribes.position_of_offset_iff hfits ⟨1, 0⟩).2 ⟨[], hline, Nat.le_refl 0⟩
  · exact hdescribes.no_overflow hfits ⟨1, 0⟩ [] hline (Nat.le_refl 0)
  · rw [hdescribes.offset_of_line ⟨2, maxOffset⟩ hlast]
    decide
  · exact (hdescribes.overflows_iff ⟨2, maxOffset⟩).2 ⟨hlast, by decide⟩

end LineIndex

end CardQuery
