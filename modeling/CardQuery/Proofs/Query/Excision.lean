import CardQuery.Proofs.Cursor.Standing
import CardQuery.Proofs.Query.LastSetting
import CardQuery.Proofs.Query.Residue
import CardQuery.Proofs.Query.Trim
import CardQuery.Proofs.Tree.Arrangement
import Mathlib.Data.List.Nodup

/-!
# Cutting settings out of a text at their bytes

What is left of a region can also be had from its text alone. The ranges of the setting tags, of
the keywords beside them and of the clauses around them are put in order, and the text between them
is cut out byte by byte. A clause comes before what is in it, so ranges inside another one are
passed over. `Excised` relates the tokens of a tree to what is kept of them and to these ranges.

Main statement: every cut falls on characters of the text, and the pieces are those between the
tokens that stripping cuts out (`Focus.residueOfText?_eq`).
-/

set_option autoImplicit false

namespace CardQuery

open CardQuery.Tree (AllOf)

/-! ## The ranges that are cut out -/

namespace Tree

/-- The ranges of the keyword tokens among several trees, the first of which starts at a byte. -/
def keywordSpans (op : Connective) (start : Nat) : List Tree → List Span
  | [] => []
  | c :: cs =>
    let rest := keywordSpans op (start + c.width) cs
    if c.tokenKind? = some (.keyword op) then ⟨start, start + c.width⟩ :: rest else rest

mutual

/-- The ranges that are cut out of a tree that starts at a byte, in the order in which they are
found: a keyword after the operands beside it, and a clause after what is in it. -/
def excludedFrom (start : Nat) : Tree → List Span
  | .token _ => []
  | .node k cs =>
    let whole : Span := ⟨start, start + widthOf cs⟩
    match k with
    | .tag => if (settingOf? (.node k cs)).isSome then [whole] else []
    | .clause =>
      excludedOf start cs ++ if (strip (.node k cs)).onlySettings then [whole] else []
    | .binary op =>
      excludedOf start cs ++
        if (cs.filter isExpression).any fun c => c.strip.onlySettings then
          keywordSpans op start cs
        else []
    | _ => []

/-- The ranges that are cut out of several trees, the first of which starts at a byte. -/
def excludedOf (start : Nat) : List Tree → List Span
  | [] => []
  | c :: cs => excludedFrom start c ++ excludedOf (start + c.width) cs

end

end Tree

/-- The pieces of a text between ranges, from byte `cursor` on. The ranges are counted from `base`,
and one that begins before the cursor is passed over. There are none when a range begins before
`base`, or when a cut would fall inside a character or past the end of the text. -/
def piecesBetween? (source : Text) (base cursor : Nat) : List Span → Option (List Text)
  | [] => (source.slice? cursor source.width).map fun piece => [piece]
  | s :: spans =>
    if s.start < base ∨ s.stop < base then none
    else
      let rest := piecesBetween? source base (max cursor (s.stop - base)) spans
      if cursor ≤ s.start - base then
        (source.slice? cursor (s.start - base)).bind fun piece => rest.map (piece :: ·)
      else rest

/-- Pieces trimmed and put together, the empty ones left out. -/
def joinPieces (pieces : List Text) : Text :=
  ((pieces.map Text.trim).filter fun piece => !piece.isEmpty).foldl appendPiece []

/-- What is left of a region, cut out of its text; nothing when a cut is not possible. -/
def Focus.residueOfText? (region : Focus) : Option Text :=
  let excluded := (Tree.excludedOf region.start region.tree.children).mergeSort
    fun a b => a.start ≤ b.start
  (piecesBetween? region.tree.text region.start 0 excluded).map joinPieces

/-! ## Tokens, what is kept of them, and ranges -/

/-- Whether `spans` are the ranges that are cut out of tokens that start at a byte, in the order of
their starts, when `kept` is what stays of the tokens. A range comes before those inside it. -/
inductive Excised : Nat → List Token → List (Option Token) → List Span → Prop
  | nil (start : Nat) : Excised start [] [] []
  | keep {start : Nat} {t : Token} {ts : List Token} {kept : List (Option Token)}
      {spans : List Span} (h : Excised (start + t.width) ts kept spans) :
      Excised start (t :: ts) (some t :: kept) spans
  | cut {start : Nat} {us ts : List Token} {kept : List (Option Token)} {inner spans : List Span}
      (hus : 0 < tokensWidth us)
      (hinner : ∀ s ∈ inner, start < s.start ∧ s.start < s.stop ∧ s.stop ≤ start + tokensWidth us)
      (hordered : inner.Pairwise fun a b => a.start < b.start)
      (h : Excised (start + tokensWidth us) ts kept spans) :
      Excised start (us ++ ts) (none :: kept) (⟨start, start + tokensWidth us⟩ :: (inner ++ spans))

namespace Excised

variable {start : Nat} {ts us : List Token} {kept kept' : List (Option Token)}
  {spans spans' : List Span}

theorem ofTokens (start : Nat) (ts : List Token) :
    Excised start ts (Stripped.ofTokens ts).kept [] := by
  induction ts generalizing start with
  | nil => exact nil start
  | cons t ts ih => exact keep (ih (start + t.width))

theorem append (h : Excised start ts kept spans)
    (h' : Excised (start + tokensWidth ts) us kept' spans') :
    Excised start (ts ++ us) (kept ++ kept') (spans ++ spans') := by
  induction h with
  | nil start => simpa [tokensWidth] using h'
  | keep _ ih =>
      rw [tokensWidth, ← Nat.add_assoc] at h'
      exact keep (ih h')
  | cut hus hinner hordered _ ih =>
      rw [tokensWidth_append, ← Nat.add_assoc] at h'
      rw [List.append_assoc, List.cons_append, List.cons_append, List.append_assoc]
      exact cut hus hinner hordered (ih h')

/-- Every range lies among the tokens and is not empty. -/
theorem bounds (h : Excised start ts kept spans) :
    ∀ s ∈ spans, start ≤ s.start ∧ s.start < s.stop ∧ s.stop ≤ start + tokensWidth ts := by
  induction h with
  | nil => simp
  | keep _ ih =>
      intro s hs
      have hs := ih s hs
      rw [tokensWidth]
      omega
  | cut hus hinner _ _ ih =>
      intro s hs
      rw [tokensWidth_append]
      rcases List.mem_cons.1 hs with rfl | hs
      · simp only
        omega
      · rcases List.mem_append.1 hs with hs | hs
        · have hs := hinner s hs
          omega
        · have hs := ih s hs
          omega

/-- No two ranges begin at one byte. -/
theorem pairwise (h : Excised start ts kept spans) :
    spans.Pairwise fun a b => a.start < b.start := by
  induction h with
  | nil => exact .nil
  | keep _ ih => exact ih
  | cut hus hinner hordered h ih =>
      refine List.pairwise_cons.2 ⟨fun s hs => ?_, List.pairwise_append.2 ⟨hordered, ih, ?_⟩⟩
      · rcases List.mem_append.1 hs with hs | hs
        · exact (hinner s hs).1
        · have hs := h.bounds s hs
          simp only
          omega
      · intro a ha b hb
        have ha := hinner a ha
        have hb := h.bounds b hb
        omega

end Excised

/-! ## Cutting the text -/

/-- Ranges that begin before the cursor and do not end after it are passed over. -/
theorem piecesBetween?_append {source : Text} {base cursor : Nat} {inner : List Span}
    (h : ∀ s ∈ inner, base ≤ s.start ∧ s.start < s.stop ∧ s.stop ≤ base + cursor)
    (spans : List Span) :
    piecesBetween? source base cursor (inner ++ spans)
      = piecesBetween? source base cursor spans := by
  induction inner with
  | nil => rfl
  | cons s inner ih =>
      obtain ⟨hs, hinner⟩ := List.forall_mem_cons.1 h
      have hinside : ¬ (s.start < base ∨ s.stop < base) := by omega
      have hbehind : ¬ cursor ≤ s.start - base := by omega
      have hcursor : max cursor (s.stop - base) = cursor := by omega
      rw [List.cons_append, piecesBetween?, if_neg hinside]
      simp only [hcursor, if_neg hbehind, ih hinner]

/-- The pieces are what stands between the cuts. `before` is behind the cursor, and `pending` was
read since the last cut. -/
theorem Excised.piecesBetween?_eq {start : Nat} {ts : List Token} {kept : List (Option Token)}
    {spans : List Span} (h : Excised start ts kept spans) {base : Nat} (before pending : List Token)
    (hstart : start = base + tokensWidth (before ++ pending)) :
    piecesBetween? (tokensText (before ++ (pending ++ ts))) base (tokensWidth before) spans
      = some ((piecesOf (pending.map some ++ kept)).map tokensText) := by
  induction h generalizing before pending with
  | nil start =>
      have hslice := slice?_tokensText before pending [] rfl rfl
      rw [List.append_nil] at hslice
      have hwidth : (tokensText (before ++ (pending ++ []))).width
          = tokensWidth before + tokensWidth pending := by
        rw [List.append_nil, width_tokensText, tokensWidth_append]
      rw [piecesBetween?, hwidth, List.append_nil, hslice, List.append_nil, piecesOf_map_some]
      rfl
  | @keep start t ts kept spans _ ih =>
      have hnext := ih before (pending ++ [t]) (by
        rw [hstart, ← List.append_assoc, tokensWidth_append _ [t]]
        simp [tokensWidth, Nat.add_assoc])
      simpa using hnext
  | @cut start us ts kept inner spans hus hinner _ h ih =>
      rw [tokensWidth_append] at hstart
      have hslice := slice?_tokensText before pending (us ++ ts) rfl rfl
      have hnext := ih (before ++ (pending ++ us)) [] (by
        rw [hstart]
        simp only [tokensWidth_append, List.append_nil]
        omega)
      have hpieces : piecesOf (pending.map some ++ none :: kept) = pending :: piecesOf kept := by
        have hnone : piecesOf (none :: kept) = [] :: piecesOf kept := rfl
        rw [piecesOf_append hnone, List.append_nil]
      have hinside : ¬ (start < base ∨ start + tokensWidth us < base) := by omega
      have hcursor : max (tokensWidth before) (start + tokensWidth us - base)
          = tokensWidth (before ++ (pending ++ us)) := by
        rw [tokensWidth_append, tokensWidth_append]
        omega
      have hbegin : start - base = tokensWidth before + tokensWidth pending := by omega
      have hsource : before ++ (pending ++ us) ++ ([] ++ ts)
          = before ++ (pending ++ (us ++ ts)) := by
        simp
      rw [hsource] at hnext
      have hskip : piecesBetween? (tokensText (before ++ (pending ++ (us ++ ts)))) base
            (tokensWidth (before ++ (pending ++ us))) (inner ++ spans)
          = some ((piecesOf kept).map tokensText) := by
        refine (piecesBetween?_append (fun s hs => ?_) spans).trans hnext
        have hs := hinner s hs
        rw [tokensWidth_append, tokensWidth_append]
        omega
      rw [piecesBetween?, if_neg hinside]
      simp only [hbegin, hcursor, hskip, hslice, hpieces, Nat.le_add_right, if_true,
        Option.bind_some, Option.map_some, List.map_cons]

/-! ## Trees -/

/-- Whether ranges, in any order, are those that are cut out of tokens that start at a byte. -/
def Excises (start : Nat) (ts : List Token) (kept : List (Option Token)) (found : List Span) :
    Prop :=
  ∃ spans, found.Perm spans ∧ Excised start ts kept spans

namespace Excises

variable {start : Nat} {ts us : List Token} {kept kept' : List (Option Token)}
  {found found' : List Span}

theorem ofTokens (start : Nat) (ts : List Token) :
    Excises start ts (Stripped.ofTokens ts).kept [] :=
  ⟨[], .refl _, .ofTokens start ts⟩

theorem perm (h : Excises start ts kept found) (hperm : found'.Perm found) :
    Excises start ts kept found' := by
  obtain ⟨spans, hspans, hexcised⟩ := h
  exact ⟨spans, hperm.trans hspans, hexcised⟩

theorem append (h : Excises start ts kept found)
    (h' : Excises (start + tokensWidth ts) us kept' found') :
    Excises start (ts ++ us) (kept ++ kept') (found ++ found') := by
  obtain ⟨spans, hspans, hexcised⟩ := h
  obtain ⟨spans', hspans', hexcised'⟩ := h'
  exact ⟨spans ++ spans', hspans.append hspans', hexcised.append hexcised'⟩

/-- Tokens are cut out as a whole. -/
theorem whole (start : Nat) (hwide : 0 < tokensWidth ts) :
    Excises start ts [none] [⟨start, start + tokensWidth ts⟩] := by
  have hcut := Excised.cut hwide (by simp) .nil (.nil (start + tokensWidth ts))
  rw [List.append_nil] at hcut
  exact ⟨_, .refl _, hcut⟩

theorem of_keep {t : Token} (h : Excises start (t :: ts) (some t :: kept) found) :
    Excises (start + t.width) ts kept found := by
  obtain ⟨spans, hspans, hexcised⟩ := h
  generalize hts : t :: ts = row, hkept : some t :: kept = left at hexcised
  cases hexcised with
  | keep hrest =>
      cases hts
      cases hkept
      exact ⟨spans, hspans, hrest⟩
  | _ => cases hkept

/-- Tokens are cut out as a whole, and what was cut out of them behind the first one lies inside. -/
theorem enclose {t : Token} (ht : 0 < t.width) (h : Excises (start + t.width) ts kept found) :
    Excises start (t :: ts) [none] (found ++ [⟨start, start + tokensWidth (t :: ts)⟩]) := by
  obtain ⟨spans, hspans, hexcised⟩ := h
  have hwide : 0 < tokensWidth (t :: ts) := by
    rw [tokensWidth]
    omega
  have hinner : ∀ s ∈ spans,
      start < s.start ∧ s.start < s.stop ∧ s.stop ≤ start + tokensWidth (t :: ts) := by
    intro s hs
    have hs := hexcised.bounds s hs
    rw [tokensWidth]
    omega
  have hcut := Excised.cut hwide hinner hexcised.pairwise (.nil (start + tokensWidth (t :: ts)))
  rw [List.append_nil, List.append_nil] at hcut
  exact ⟨_, (hspans.append_right _).trans List.perm_append_comm, hcut⟩

end Excises

theorem tokensWidth_pos {ts : List Token} (hne : ts ≠ []) (hwide : ∀ x ∈ ts, 0 < x.width) :
    0 < tokensWidth ts := by
  obtain ⟨t, rest, rfl⟩ := List.exists_cons_of_ne_nil hne
  have ht := hwide t List.mem_cons_self
  rw [tokensWidth]
  omega

namespace Tree

theorem tokensOf_eq_flatMap (cs : List Tree) : tokensOf cs = cs.flatMap tokens := by
  induction cs with
  | nil => simp
  | cons c cs ih => simp [ih]

/-- A setting tag has tokens: its argument spells the setting. -/
theorem tokensOf_ne_nil_of_isSetting {k : NodeKind} {cs : List Tree}
    (h : (settingOf? (node k cs)).isSome = true) : tokensOf cs ≠ [] := by
  obtain ⟨⟨key, value⟩, hgiven⟩ := Option.isSome_iff_exists.1 h
  obtain ⟨-, ⟨a, ha, hsetting⟩, -⟩ := settingOf?_eq_some_iff.1 hgiven
  intro hnil
  rw [tokensOf_eq_flatMap, List.flatMap_eq_nil_iff] at hnil
  have htext : a.text = [] := by
    rw [text, hnil a (List.mem_of_find?_eq_some ha)]
    rfl
  rw [htext] at hsetting
  have hblank : setting? [] = none := by decide
  rw [hblank] at hsetting
  cases hsetting

theorem strip_of_not_isExpression {c : Tree} (h : c.isExpression = false) :
    c.strip = .ofTokens c.tokens := by
  cases c with
  | token t => simp
  | node k cs => cases k <;> simp_all [strip, isExpression, NodeKind.isExpression]

/-- What is cut out of several trees: what is cut out of each, with the keywords among them when
an operand goes. -/
theorem excises_cons {op : Connective} {cutOut : Bool} {c : Tree} {cs : List Tree} {start : Nat}
    (hwide : ∀ x ∈ c.tokens, 0 < x.width)
    (h : Excises start c.tokens c.strip.kept (excludedFrom start c))
    (hrest : Excises (start + c.width) (tokensOf cs) (cs.flatMap (keptBeside op cutOut))
      (excludedOf (start + c.width) cs ++
        if cutOut then keywordSpans op (start + c.width) cs else [])) :
    Excises start (tokensOf (c :: cs)) ((c :: cs).flatMap (keptBeside op cutOut))
      (excludedOf start (c :: cs) ++ if cutOut then keywordSpans op start (c :: cs) else []) := by
  rw [tokensOf_cons, List.flatMap_cons]
  have hwidth := tokensWidth_tokens c
  by_cases hkeyword : c.tokenKind? = some (.keyword op) ∧ cutOut = true
  · cases c with
    | node k ds => cases hkeyword.1
    | token t =>
        obtain ⟨hkind, rfl⟩ := hkeyword
        have hone : 0 < tokensWidth [t] := tokensWidth_pos (by simp) (by simpa using hwide)
        rw [tokens_token] at hwidth ⊢
        rw [← hwidth] at hrest
        have hcut := (Excises.whole start hone).append hrest
        rw [hwidth] at hcut
        have hkept : keptBeside op true (token t) = [none] := by simp [keptBeside, hkind]
        have hspans : keywordSpans op start (token t :: cs)
            = ⟨start, start + (token t).width⟩ :: keywordSpans op (start + (token t).width) cs := by
          rw [keywordSpans, if_pos hkind]
        rw [hkept, hspans, excludedOf, excludedFrom]
        exact hcut.perm List.perm_middle
  · have hkept : keptBeside op cutOut c = c.strip.kept := if_neg hkeyword
    have hspans : (if cutOut then keywordSpans op start (c :: cs) else [])
        = if cutOut then keywordSpans op (start + c.width) cs else [] := by
      cases cutOut with
      | false => rfl
      | true => simp [keywordSpans, show c.tokenKind? ≠ _ from fun hk => hkeyword ⟨hk, rfl⟩]
    rw [hkept, hspans, excludedOf, List.append_assoc]
    exact h.append (by rwa [hwidth])

mutual

/-- The ranges that are found in a tree are those of what is not kept of it. -/
theorem excises_strip {t : Tree} (h : t.All NodeKind.Arranged)
    (hwide : ∀ x ∈ t.tokens, 0 < x.width) (start : Nat) :
    Excises start t.tokens t.strip.kept (excludedFrom start t) := by
  cases t with
  | token t => simpa [excludedFrom] using Excises.ofTokens start [t]
  | node k cs =>
      obtain ⟨hk, hcs⟩ := (all_node k cs).1 h
      rw [tokens_node] at hwide ⊢
      have hparts := fun op cutOut => excisesOf_strip op cutOut hcs hwide start
      cases k with
      | tag =>
          cases hsetting : settingOf? (node .tag cs) with
          | none => simpa [excludedFrom, strip, hsetting] using Excises.ofTokens start (tokensOf cs)
          | some given =>
              have hsome : (settingOf? (node .tag cs)).isSome = true := by rw [hsetting]; rfl
              have hcut := Excises.whole start
                (tokensWidth_pos (tokensOf_ne_nil_of_isSetting hsome) hwide)
              rw [tokensWidth_tokensOf] at hcut
              simpa [excludedFrom, strip, hsetting, Stripped.cut] using hcut
      | clause =>
          have hinside := hparts .and false
          have hkept : cs.flatMap (keptBeside .and false)
              = (cs.map strip).flatMap Stripped.kept := by
            rw [List.flatMap_map]
            exact List.flatMap_congr fun c _ => if_neg (by simp)
          rw [hkept] at hinside
          have hclause := strip_clause cs
          split at hclause
          · -- the clause begins with its parenthesis, and the rest lies inside
            obtain ⟨⟨t, rest, rfl, -⟩, -⟩ := hk.parts
            have ht : 0 < t.width := hwide t (by simp)
            simp only [List.map_cons, strip_token, List.flatMap_cons, Stripped.ofTokens,
              List.map_nil, List.singleton_append, tokensOf_cons, tokens_token] at hinside
            have hcut := Excises.enclose ht hinside.of_keep
            rw [← List.singleton_append, ← tokens_token, ← tokensOf_cons,
              tokensWidth_tokensOf] at hcut
            simpa [excludedFrom, hclause, Stripped.cut] using hcut
          · simpa [excludedFrom, hclause, Stripped.concat] using hinside
      | binary op =>
          have hkept := (strip_binary op cs).1
          rw [hkept]
          simpa only [excludedFrom] using hparts op _
      | _ => simpa [excludedFrom, strip] using Excises.ofTokens start (tokensOf cs)

theorem excisesOf_strip (op : Connective) (cutOut : Bool) {cs : List Tree}
    (h : AllOf NodeKind.Arranged cs) (hwide : ∀ x ∈ tokensOf cs, 0 < x.width) (start : Nat) :
    Excises start (tokensOf cs) (cs.flatMap (keptBeside op cutOut))
      (excludedOf start cs ++ if cutOut then keywordSpans op start cs else []) := by
  cases cs with
  | nil => simpa [excludedOf, keywordSpans, Stripped.ofTokens] using Excises.ofTokens start []
  | cons c cs =>
      obtain ⟨hc, hcs⟩ := (allOf_cons c cs).1 h
      rw [tokensOf_cons, List.forall_mem_append] at hwide
      exact excises_cons hwide.1 (excises_strip hc hwide.1 start)
        (excisesOf_strip op cutOut hcs hwide.2 (start + c.width))

end

end Tree

/-! ## Regions -/

theorem Excises.mergeSort_eq {start : Nat} {ts : List Token} {kept : List (Option Token)}
    {found : List Span} (h : Excises start ts kept found) :
    Excised start ts kept (found.mergeSort fun a b => a.start ≤ b.start) := by
  obtain ⟨spans, hspans, hexcised⟩ := h
  have hordered := hexcised.pairwise
  have hsorted : (found.mergeSort fun a b => a.start ≤ b.start).Pairwise
      fun a b => a.start ≤ b.start := by
    let le := fun a b : Span => decide (a.start ≤ b.start)
    have htrans : ∀ a b c : Span, le a b = true → le b c = true → le a c = true := by
      simp only [le, decide_eq_true_eq]
      omega
    have htotal : ∀ a b : Span, (le a b || le b a) = true := by
      simp only [le, Bool.or_eq_true, decide_eq_true_eq]
      omega
    simpa [le] using List.pairwise_mergeSort htrans htotal found
  have hsame : found.mergeSort (fun a b => a.start ≤ b.start) = spans := by
    refine List.Perm.eq_of_pairwise ?_ hsorted (hordered.imp fun h => Nat.le_of_lt h)
      ((List.mergeSort_perm _ _).trans hspans)
    intro a b ha hb hab hba
    have hstarts : (spans.map Span.start).Nodup :=
      List.pairwise_map.2 (hordered.imp fun h => Nat.ne_of_lt h)
    have hmem : a ∈ spans := hspans.mem_iff.1 (List.mem_mergeSort.1 ha)
    exact List.inj_on_of_nodup_map hstarts hmem hb (Nat.le_antisymm hab hba)
  rw [hsame]
  exact hexcised

theorem kept_stripRegion_eq (k : NodeKind) (cs : List Tree) :
    (Tree.node k cs).stripRegion.kept = cs.flatMap (Tree.keptBeside .and false) := by
  rw [kept_stripRegion]
  refine List.flatMap_congr fun c _ => ?_
  have hbeside : Tree.keptBeside .and false c = c.strip.kept := if_neg (by simp)
  rw [hbeside, keptInRegion]
  split
  · rfl
  · next hexpr => rw [Tree.strip_of_not_isExpression (Bool.eq_false_iff.2 hexpr)]

/-- **Cutting the settings out of the text of a region is always possible, and what is left is what
is left of its tokens.** -/
theorem Focus.residueOfText?_eq {region : Focus} (hnode : region.tree.isNode = true)
    (h : region.tree.All NodeKind.Arranged) (hwide : ∀ x ∈ region.tree.tokens, 0 < x.width) :
    region.residueOfText? = some (residualText region.tree.stripRegion.kept) := by
  rcases region with ⟨t, start, above⟩
  cases t with
  | token t => cases hnode
  | node k cs =>
      rw [Tree.tokens_node] at hwide
      have hall := ((Tree.all_node k cs).1 h).2
      have hexcises := Tree.excisesOf_strip .and false hall hwide start
      rw [← kept_stripRegion_eq k cs] at hexcises
      simp only [Bool.false_eq_true, if_false, List.append_nil] at hexcises
      have hstart : start = start + tokensWidth ([] ++ []) := rfl
      have hpieces := hexcises.mergeSort_eq.piecesBetween?_eq [] [] hstart
      simp only [List.nil_append, List.map_nil, tokensWidth] at hpieces
      simp only [residueOfText?, Tree.children, Tree.text, Tree.tokens_node, hpieces,
        Option.map_some, joinPieces, List.map_map]
      rfl

end CardQuery
