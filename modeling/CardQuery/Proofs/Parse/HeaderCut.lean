import CardQuery.Proofs.Parse.Program

/-!
# Where a text is cut

`HeaderAt` says of a position whether a header stands there, by looking at the tokens around it,
and `pieces` takes the headers out of a row of tokens and cuts it where they stood. Neither knows
how the row is read.

Main statement: the regions of a text are these pieces (`regionsOf_eq_pieces`).
-/

set_option autoImplicit false

namespace CardQuery

/-- Whether a header stands at a position: a word that is no argument, at the start of the text or
of a line, with a colon after it and then a blank or nothing. -/
def HeaderAt (ts : List Token) (i : Nat) : Prop :=
  (∃ w ∈ ts[i]?, w.kind = .word ∧ isArgument w.text = false) ∧
  (i = 0 ∨ ∃ b ∈ ts[i - 1]?, b.kind = .blank ∧ (i = 1 ∨ '\n' ∈ b.text)) ∧
  (∃ c ∈ ts[i + 1]?, c.kind = .comparison .colon) ∧
  ∀ b ∈ ts[i + 2]?, b.kind = .blank

instance (ts : List Token) : DecidablePred (HeaderAt ts) := fun i =>
  inferInstanceAs (Decidable
    ((∃ w ∈ ts[i]?, w.kind = .word ∧ isArgument w.text = false) ∧
    (i = 0 ∨ ∃ b ∈ ts[i - 1]?, b.kind = .blank ∧ (i = 1 ∨ '\n' ∈ b.text)) ∧
    (∃ c ∈ ts[i + 1]?, c.kind = .comparison .colon) ∧
    ∀ b ∈ ts[i + 2]?, b.kind = .blank))

/-- The positions of the headers. -/
def headers (ts : List Token) : List Nat :=
  (List.range ts.length).filter fun i => HeaderAt ts i

/-- What is left of a row when the two tokens at each of these positions are taken out. -/
def slices (cuts : List Nat) (ts : List Token) : List (List Token) :=
  List.zipWith (fun start stop => (ts.take stop).drop start)
    (0 :: cuts.map (· + 2)) (cuts ++ [ts.length])

/-- The pieces between the headers of a row. -/
def pieces (ts : List Token) : List (List Token) :=
  slices (headers ts) ts

/-! ## Cutting one token further on -/

theorem zipWith_slice_succ (t : Token) (ts : List Token) (starts stops : List Nat) :
    List.zipWith (fun start stop => ((t :: ts).take stop).drop start)
        (starts.map (· + 1)) (stops.map (· + 1))
      = List.zipWith (fun start stop => (ts.take stop).drop start) starts stops := by
  rw [List.zipWith_map]
  rfl

/-- Behind one more token, all that is cut stands one place further on. -/
theorem shift_cuts (cuts : List Nat) (t : Token) (ts : List Token) :
    (cuts.map (· + 1)).map (· + 2) = (cuts.map (· + 2)).map (· + 1) ∧
      cuts.map (· + 1) ++ [(t :: ts).length] = (cuts ++ [ts.length]).map (· + 1) := by
  refine ⟨?_, by simp⟩
  rw [List.map_map, List.map_map]
  exact List.map_congr_left fun cut _ => rfl

theorem slices_cons {cuts : List Nat} {ts piece : List Token} {rest : List (List Token)}
    (h : slices cuts ts = piece :: rest) (t : Token) :
    slices (cuts.map (· + 1)) (t :: ts) = (t :: piece) :: rest := by
  obtain ⟨hstarts, hstops⟩ := shift_cuts cuts t ts
  unfold slices at h ⊢
  rw [hstarts, hstops]
  cases hcuts : cuts ++ [ts.length] with
  | nil => simp at hcuts
  | cons stop stops =>
      rw [hcuts, List.zipWith_cons_cons, List.cons.injEq] at h
      rw [List.map_cons, List.zipWith_cons_cons, zipWith_slice_succ, h.2, ← h.1]
      rfl

theorem slices_cons_zero {cuts : List Nat} {ts piece : List Token} {rest : List (List Token)}
    (h : slices cuts ts = piece :: rest) (t : Token) :
    slices (0 :: cuts.map (· + 1)) (t :: ts) = [] :: piece.drop 1 :: rest := by
  obtain ⟨hstarts, hstops⟩ := shift_cuts cuts t ts
  unfold slices at h ⊢
  rw [List.map_cons, hstarts, List.cons_append, hstops]
  cases hcuts : cuts ++ [ts.length] with
  | nil => simp at hcuts
  | cons stop stops =>
      rw [hcuts, List.zipWith_cons_cons, List.cons.injEq] at h
      rw [List.map_cons, List.zipWith_cons_cons, List.zipWith_cons_cons, zipWith_slice_succ, h.2,
        ← h.1]
      rfl

/-! ## Headers, token by token -/

/-- The positions of the headers of a row, when `first` and `atLine` tell what stands before. -/
def headersFrom (first atLine : Bool) : List Token → List Nat
  | [] => []
  | t :: ts =>
    let later := (headersFrom false (startsLine first t) ts).map (· + 1)
    if atLine && isHeader t ts then 0 :: later else later

/-- The token after a header does not begin with another. -/
theorem cutFrom_ne_nil_of_isHeader {t : Token} {ts : List Token} (h : isHeader t ts = true)
    (first atLine : Bool) : ∃ colon body, (cutFrom first atLine ts).1 = colon :: body := by
  cases ts with
  | nil => simp [isHeader] at h
  | cons c cs =>
      have hc : isHeader c cs = false := by
        have hcolon : c.kind = .comparison .colon := by
          simp only [isHeader, List.head?_cons, Option.any_some, Bool.and_eq_true,
            decide_eq_true_eq] at h
          exact h.1.1.2
        simp [isHeader, hcolon]
      rcases hcut : cutFrom false (startsLine first c) cs with ⟨run, sections⟩
      cases run <;> simp [cutFrom, hcut, hc]

theorem slices_headersFrom (first atLine : Bool) (ts : List Token) :
    slices (headersFrom first atLine ts) ts
      = (cutFrom first atLine ts).1 :: (cutFrom first atLine ts).2.map Section.body := by
  induction ts generalizing first atLine with
  | nil => rfl
  | cons t ts ih =>
      -- a header starts a new piece, and any other token is put before the first piece
      have hrest := ih false (startsLine first t)
      by_cases hheader : (atLine && isHeader t ts) = true
      · obtain ⟨colon, body, hrun⟩ := cutFrom_ne_nil_of_isHeader
          (Bool.and_eq_true_iff.1 hheader).2 false (startsLine first t)
        rcases hcut : cutFrom false (startsLine first t) ts with ⟨run, sections⟩
        rw [hcut] at hrest hrun
        obtain rfl : run = colon :: body := hrun
        simp only [headersFrom, hheader, if_true, cutFrom, hcut]
        exact slices_cons_zero hrest t
      · rcases hcut : cutFrom false (startsLine first t) ts with ⟨run, sections⟩
        rw [hcut] at hrest
        simp only [headersFrom, hheader, cutFrom, hcut]
        cases run <;> exact slices_cons hrest t

/-- A header, seen from the flags that the cutting of a row passes on. -/
theorem mem_headersFrom_iff {first atLine : Bool} {ts : List Token} {i : Nat} :
    i ∈ headersFrom first atLine ts ↔
      (∃ t rest, ts.drop i = t :: rest ∧ isHeader t rest = true) ∧
        ((i = 0 ∧ atLine = true) ∨
          ∃ j b, i = j + 1 ∧ ts[j]? = some b ∧ startsLine (first && j = 0) b = true) := by
  induction ts generalizing first atLine i with
  | nil => simp [headersFrom]
  | cons t ts ih =>
      cases i with
      | zero =>
          by_cases hheader : (atLine && isHeader t ts) = true
          · have hboth := Bool.and_eq_true_iff.1 hheader
            simp [headersFrom, hboth.1, hboth.2]
          · simp only [headersFrom, hheader]
            simp only [Bool.and_eq_true, not_and] at hheader
            simp only [List.drop_zero, List.cons.injEq]
            constructor
            · intro h
              simp at h
            · rintro ⟨⟨x, rest, ⟨rfl, rfl⟩, hx⟩, ⟨-, hline⟩ | ⟨j, b, hj, -⟩⟩
              · exact absurd hx (hheader hline)
              · omega
      | succ i =>
          have hmem : i + 1 ∈ headersFrom first atLine (t :: ts)
              ↔ i ∈ headersFrom false (startsLine first t) ts := by
            by_cases hheader : (atLine && isHeader t ts) = true <;>
              simp [headersFrom, hheader]
          -- only the token just before decides whether a line starts here
          rw [hmem, ih]
          refine and_congr (by simp) ?_
          constructor
          · rintro (⟨rfl, hline⟩ | ⟨j, b, rfl, hb, hline⟩)
            · exact Or.inr ⟨0, t, rfl, rfl, by simpa using hline⟩
            · exact Or.inr ⟨j + 1, b, rfl, by simpa using hb, by simpa using hline⟩
          · rintro (⟨h, -⟩ | ⟨j, b, hj, hb, hline⟩)
            · omega
            · obtain rfl : i = j := by omega
              cases i with
              | zero =>
                  obtain rfl : t = b := by simpa using hb
                  exact Or.inl ⟨rfl, by simpa using hline⟩
              | succ i => exact Or.inr ⟨i, b, rfl, by simpa using hb, by simpa using hline⟩

theorem headersFrom_eq_filter (first atLine : Bool) (ts : List Token) :
    headersFrom first atLine ts
      = (List.range ts.length).filter fun i => i ∈ headersFrom first atLine ts := by
  induction ts generalizing first atLine with
  | nil => rfl
  | cons t ts ih =>
      -- the first position is told apart, and all the others move one place
      have hlater := ih false (startsLine first t)
      rw [List.length_cons, List.range_succ_eq_map, List.filter_cons, List.filter_map]
      by_cases hheader : (atLine && isHeader t ts) = true
      · simp only [headersFrom, hheader, if_true, List.mem_cons, true_or, decide_true]
        congr 1
        conv_lhs => rw [hlater]
        congr 2
        funext i
        simp
      · simp only [headersFrom, hheader, Bool.false_eq_true, if_false]
        rw [if_neg (by simp)]
        conv_lhs => rw [hlater]
        congr 2
        funext i
        simp

/-- What `isHeader` looks at are the three tokens from a position on. -/
theorem exists_isHeader_iff {ts : List Token} {i : Nat} :
    (∃ t rest, ts.drop i = t :: rest ∧ isHeader t rest = true) ↔
      (∃ w ∈ ts[i]?, w.kind = .word ∧ isArgument w.text = false) ∧
      (∃ c ∈ ts[i + 1]?, c.kind = .comparison .colon) ∧ ∀ b ∈ ts[i + 2]?, b.kind = .blank := by
  have hget : ∀ k, ts[i + k]? = (ts.drop i)[k]? := fun k => by rw [List.getElem?_drop]
  rw [show ts[i]? = (ts.drop i)[0]? from hget 0, hget 1, hget 2]
  cases ts.drop i with
  | nil => simp
  | cons w rest =>
      rcases rest with _ | ⟨c, _ | ⟨b, rest⟩⟩ <;>
        simp [isHeader, Token.isBlank, and_assoc, and_comm, and_left_comm]

theorem mem_headers_iff {ts : List Token} {i : Nat} :
    i ∈ headersFrom true true ts ↔ HeaderAt ts i := by
  rw [mem_headersFrom_iff, exists_isHeader_iff, HeaderAt]
  have hline : ((i = 0 ∧ (true : Bool) = true) ∨
      ∃ j b, i = j + 1 ∧ ts[j]? = some b ∧ startsLine (true && j = 0) b = true) ↔
        (i = 0 ∨ ∃ b ∈ ts[i - 1]?, b.kind = .blank ∧ (i = 1 ∨ '\n' ∈ b.text)) := by
    constructor
    · rintro (⟨rfl, -⟩ | ⟨j, b, rfl, hb, hline⟩)
      · exact Or.inl rfl
      · refine Or.inr ⟨b, by simpa using hb, ?_⟩
        simpa [startsLine, Token.isBlank] using hline
    · rintro (rfl | ⟨b, hb, hline⟩)
      · exact Or.inl ⟨rfl, rfl⟩
      · cases i with
        | zero => exact Or.inl ⟨rfl, rfl⟩
        | succ j =>
            refine Or.inr ⟨j, b, rfl, by simpa using hb, ?_⟩
            simpa [startsLine, Token.isBlank] using hline
  rw [hline, and_assoc, and_congr_right_iff]
  intro _
  rw [and_comm]

theorem headers_eq_headersFrom (ts : List Token) : headers ts = headersFrom true true ts := by
  rw [headersFrom_eq_filter, headers]
  congr 1
  funext i
  simp [mem_headers_iff]

/-- **The regions of a text are the pieces between its headers.** -/
theorem regionsOf_eq_pieces (ts : List Token) : regionsOf ts = pieces ts := by
  rw [pieces, headers_eq_headersFrom, slices_headersFrom]
  rfl

/-- There is one section for each header. -/
theorem length_headers (ts : List Token) :
    (headers ts).length = (cutAtHeaders ts).2.length := by
  have hlength := congrArg List.length (regionsOf_eq_pieces ts)
  simpa [regionsOf, pieces, slices, eq_comm] using hlength

end CardQuery
