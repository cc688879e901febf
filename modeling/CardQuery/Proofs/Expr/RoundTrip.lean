import CardQuery.Expr.Document
import CardQuery.Proofs.Expr.Printing
import CardQuery.Proofs.Parse.Lines

/-!
# Reading a printed document

The document of a text without errors is printed line by line: the shared expression first, and
then each query behind its name. No printed expression looks like a header, and every name is
printed where a header is looked for, so the printed text is cut into the same queries again.

Main statement: a printed document has no syntax errors, and is the same document up to the normal
form of its expressions (`Document.ofTree_parse_text`).
-/

set_option autoImplicit false

namespace CardQuery

/-! ## The document of a text -/

/-- The document of a text without headers. -/
theorem Document.ofTree_of_no_header {ts run : List Token} {t : Option Tree}
    (hcut : cutAtHeaders ts = (run, [])) (h : Reads run t) :
    ofTree (parseTokens ts) = ⟨none, (meaning run).toList.map fun e => ⟨none, some e⟩⟩ := by
  have hqueries := h.queries_eq_nil .program
  rw [parseTokens, hcut]
  simp [ofTree, hqueries, Tree.lowerRegion, meaning, Tree.children]

/-- The document of a text with headers. -/
theorem Document.ofTree_of_headers {ts run : List Token} {sections : List Section}
    (hcut : cutAtHeaders ts = (run, sections)) (hne : sections ≠ []) :
    ofTree (parseTokens ts)
      = ⟨meaning run, sections.map fun s => ⟨some s.name.text, meaning s.body⟩⟩ := by
  obtain ⟨s, rest, rfl⟩ := List.exists_cons_of_ne_nil hne
  have htree : parseTokens ts
      = .node .program (domainTrees run ++ (s :: rest).map Section.tree) := by
    rw [parseTokens, hcut]
  have hentry : ∀ s : Section, s.tree.queryBody?.bind Tree.lowerRegion = meaning s.body := by
    intro s
    rw [Section.queryBody?_tree, ← meaning_dropWhile]
    rfl
  rw [htree, ofTree, queries_of_sections, meaning_domain?]
  simp [Section.queryName?_tree, hentry]

/-! ## Printed lines -/

/-- What is printed behind the colon of a header, or behind nothing. -/
structure PrintedBody (ts : List Token) (o : Option Expr) : Prop where
  lexed : Lexed ts
  text_eq : tokensText ts = o.elim [] fun e => ' ' :: e.text
  readsLike : ReadsLike ts o
  first : ∀ t ∈ ts.head?, t.kind = .blank
  last : ∀ t ∈ ts.getLast?, t.kind ≠ .blank

theorem exists_printedBody {o : Option Expr} (ho : ∀ e ∈ o, e.Printable) :
    ∃ ts, PrintedBody ts o ∧ PrintsLike ts o := by
  cases o with
  | none => exact ⟨[], ⟨.nil, rfl, .nil, by simp, by simp⟩, rfl⟩
  | some e =>
      obtain ⟨us, is, hphrase, htext, hlike, hprinted⟩ := (ho e rfl).exists_phrase
      have hspace : Lexed [Token.space] := lexed_singleton (by decide) rfl
      refine ⟨.space :: us, ⟨hspace.append hphrase.lexed ?_, by simp [Token.space, htext],
        hlike.cons_blank rfl, by simp [Token.space], ?_⟩, ?_⟩
      · intro a ha b hb
        obtain rfl : Token.space = a := by simpa using ha
        exact TokenKind.blank_canPrecede (hphrase.first b hb)
      · intro t ht
        rw [show Token.space :: us = [.space] ++ us from rfl,
          List.getLast?_append_of_ne_nil _ hphrase.ne_nil] at ht
        exact hphrase.last t ht
      · rw [PrintsLike, hlike.meaning_cons_blank rfl, hprinted]

/-- A word that names a query when a colon follows it at the start of a line. -/
structure Token.NamesQuery (t : Token) : Prop where
  lexeme : t.IsLexeme
  word : t.kind = .word
  notArgument : isArgument t.text = false

/-- A name and the body behind its colon. -/
def PrintedLine (line : Token × List Token) : Prop :=
  line.1.NamesQuery ∧ ∃ o, PrintedBody line.2 o

/-- The sections of lines that are printed one below the other. -/
def layOut : List (Token × List Token) → List Section
  | [] => []
  | [(name, body)] => [⟨name, .colon, body⟩]
  | (name, body) :: line :: lines => ⟨name, .colon, body ++ [.newline]⟩ :: layOut (line :: lines)

section Lines

variable {lines : List (Token × List Token)}

theorem tokensText_layOut (lines : List (Token × List Token)) :
    tokensText ((layOut lines).flatMap Section.tokens)
      = Text.join ['\n'] (lines.map fun line => line.1.text ++ ':' :: tokensText line.2) := by
  induction lines using layOut.induct with
  | case1 => rfl
  | case2 name body => simp [layOut, Text.join, Section.tokens, Token.colon]
  | case3 name body line lines ih =>
      rw [layOut, List.flatMap_cons, tokensText_append, ih]
      simp [Text.join, Section.tokens, Token.colon, Token.newline]

theorem laidOut_layOut (h : ∀ line ∈ lines, PrintedLine line) : LaidOut (layOut lines) := by
  induction lines using layOut.induct with
  | case1 => trivial
  | case2 name body =>
      obtain ⟨hname, o, hbody⟩ := h (name, body) (by simp)
      exact ⟨⟨hname.word, hname.notArgument⟩, rfl, hbody.readsLike.held, hbody.first,
        fun hne => absurd rfl hne, trivial⟩
  | case3 name body line lines ih =>
      obtain ⟨hname, o, hbody⟩ := h (name, body) (by simp)
      refine ⟨⟨hname.word, hname.notArgument⟩, rfl,
        (hbody.readsLike.concat_blank (b := .newline) rfl).held, ?_,
        fun _ => ⟨body, .newline, rfl, rfl, by decide⟩, ih fun x hx => h x (by simp [hx])⟩
      intro b hb
      cases body with
      | nil =>
          obtain rfl : Token.newline = b := by simpa using hb
          rfl
      | cons x xs => exact hbody.first b (by simpa using hb)

/-- A name and its colon in front of a body are read back. -/
theorem lexed_line {name : Token} {body : List Token} {o : Option Expr} (hname : name.NamesQuery)
    (hbody : PrintedBody body o) : Lexed (name :: .colon :: body) := by
  have hcolon : Lexed (Token.colon :: body) :=
    (lexed_singleton (t := .colon) (by decide) rfl).append hbody.lexed fun a ha b hb => by
      obtain rfl : Token.colon = a := by simpa using ha
      rfl
  have hclosed : name.isClosed = true := by simp [Token.isClosed, hname.word]
  refine (lexed_singleton hname.lexeme hclosed).append hcolon ?_
  intro a ha b hb
  obtain rfl : name = a := by simpa using ha
  obtain rfl : Token.colon = b := by simpa using hb
  rw [hname.word]
  rfl

/-- A line does not end with a blank. -/
theorem getLast?_line {name : Token} {body : List Token} {o : Option Expr}
    (hbody : PrintedBody body o) :
    ∀ t ∈ (name :: Token.colon :: body).getLast?, t.kind ≠ .blank := by
  intro t ht
  cases body with
  | nil =>
      obtain rfl : Token.colon = t := by simpa using ht
      decide
  | cons x xs =>
      rw [show name :: Token.colon :: x :: xs = [name, .colon] ++ x :: xs from rfl,
        List.getLast?_append_of_ne_nil _ (by simp)] at ht
      exact hbody.last t ht

/-- Behind a line that does not end with a blank, further lines can stand below it. -/
theorem Lexed.append_newline {ts us : List Token} (hts : Lexed ts)
    (hlast : ∀ t ∈ ts.getLast?, t.kind ≠ .blank) (hus : Lexed us)
    (hfirst : ∀ t ∈ us.head?, t.kind ≠ .blank) : Lexed (ts ++ .newline :: us) := by
  have hnewline : Lexed (.newline :: us) :=
    (lexed_singleton (t := .newline) (by decide) rfl).append hus fun a ha b hb => by
      obtain rfl : Token.newline = a := by simpa using ha
      exact TokenKind.blank_canPrecede (hfirst b hb)
  refine hts.append hnewline fun a ha b hb => ?_
  obtain rfl : Token.newline = b := by simpa using hb
  exact TokenKind.canPrecede_blank (hlast a ha)

theorem head?_layOut (h : ∀ line ∈ lines, PrintedLine line) :
    ∀ t ∈ ((layOut lines).flatMap Section.tokens).head?, t.kind ≠ .blank := by
  intro t ht hk
  have hword : ∀ {name : Token} {body : List Token}, PrintedLine (name, body) →
      name.kind ≠ .blank := by
    intro name body hline
    rw [hline.1.word]
    decide
  induction lines using layOut.induct with
  | case1 => cases ht
  | case2 name body =>
      obtain rfl : name = t := by simpa [layOut, Section.tokens] using ht
      exact hword (h (name, body) (by simp)) hk
  | case3 name body line lines ih =>
      obtain rfl : name = t := by simpa [layOut, Section.tokens] using ht
      exact hword (h (name, body) List.mem_cons_self) hk

theorem lexed_layOut (h : ∀ line ∈ lines, PrintedLine line) :
    Lexed ((layOut lines).flatMap Section.tokens) := by
  induction lines using layOut.induct with
  | case1 => exact .nil
  | case2 name body =>
      obtain ⟨hname, o, hbody⟩ := h (name, body) (by simp)
      simpa [layOut, Section.tokens] using lexed_line hname hbody
  | case3 name body line lines ih =>
      obtain ⟨hname, o, hbody⟩ := h (name, body) (by simp)
      have hrest : ∀ x ∈ line :: lines, PrintedLine x := fun x hx => h x (by simp [hx])
      have hall := (lexed_line hname hbody).append_newline (getLast?_line hbody) (ih hrest)
        (head?_layOut hrest)
      simpa [layOut, Section.tokens] using hall

/-- Every section of printed lines is read as its line says. -/
theorem map_layOut (h : ∀ line ∈ lines, PrintedLine line) :
    (layOut lines).map (fun s => (⟨some s.name.text, meaning s.body⟩ : DocumentEntry))
      = lines.map fun line => ⟨some line.1.text, meaning line.2⟩ := by
  induction lines using layOut.induct with
  | case1 => rfl
  | case2 name body => rfl
  | case3 name body line lines ih =>
      obtain ⟨hname, o, hbody⟩ := h (name, body) (by simp)
      -- the end of the line belongs to the body, and asks nothing
      have hmeaning : meaning (body ++ [.newline]) = meaning body :=
        hbody.readsLike.meaning_concat_blank rfl
      rw [layOut, List.map_cons, ih fun x hx => h x (by simp [hx]), hmeaning]
      rfl

theorem faultless_layOut (h : ∀ line ∈ lines, PrintedLine line) :
    ∀ s ∈ layOut lines, Tree.faultlessEach (regionTrees s.body) = true := by
  induction lines using layOut.induct with
  | case1 => simp [layOut]
  | case2 name body =>
      obtain ⟨hname, o, hbody⟩ := h (name, body) (by simp)
      simpa [layOut] using hbody.readsLike.faultless
  | case3 name body line lines ih =>
      obtain ⟨hname, o, hbody⟩ := h (name, body) (by simp)
      intro s hs
      rcases List.mem_cons.1 hs with rfl | hs
      · exact (hbody.readsLike.concat_blank (b := .newline) rfl).faultless
      · exact ih (fun x hx => h x (by simp [hx])) s hs

end Lines

/-! ## Printed documents -/

namespace Document

/-- A printed expression without a name is read back. -/
theorem exists_reading_of_expr {o : Option Expr} (ho : ∀ e ∈ o, e.Printable) {d : Document}
    (hd : d = ⟨none, o.toList.map fun e => ⟨none, some e⟩⟩) :
    ∃ us, ReadsLike us o ∧ PrintsLike us o ∧ parse d.text = .node .program (regionTrees us) ∧
      ofTree (parse d.text) = ⟨none, (meaning us).toList.map fun e => ⟨none, some e⟩⟩ := by
  have htext : ∃ us, tokenize d.text = us ∧ ReadsLike us o ∧ PrintsLike us o := by
    cases o with
    | none => exact ⟨[], by rw [hd]; rfl, .nil, rfl⟩
    | some e =>
        obtain ⟨us, is, hphrase, htext, hlike⟩ := (ho e rfl).exists_phrase
        refine ⟨us, ?_, hlike⟩
        have hprinted : d.text = tokensText us := by
          rw [htext, hd]
          rfl
        rw [hprinted, hphrase.tokenize_tokensText]
  obtain ⟨us, htokens, hlike, hprinted⟩ := htext
  have hcut := cutAtHeaders_of_held hlike.held
  obtain ⟨t, ht, -⟩ := id hlike
  refine ⟨us, hlike, hprinted, ?_, ?_⟩
  · rw [parse, htokens, parseTokens, hcut]
  · rw [parse, htokens, ofTree_of_no_header hcut ht]

theorem ofTree_parse_text_of_expr {o : Option Expr} (ho : ∀ e ∈ o, e.Printable) {d : Document}
    (hd : d = ⟨none, o.toList.map fun e => ⟨none, some e⟩⟩) :
    (parse d.text).faultless = true ∧ (ofTree (parse d.text)).normalized = d.normalized := by
  obtain ⟨us, hlike, -, hparse, hread⟩ := exists_reading_of_expr ho hd
  constructor
  · rw [hparse, Tree.faultless_of_isRegion rfl, hlike.faultless]
  · have hmeaning := hlike.map_meaning
    rw [hread, hd]
    cases hm : meaning us <;> cases o <;> simp_all [normalized]

/-- A shared expression stands on a line of its own. -/
theorem exists_printed_domain {o : Option Expr} (ho : ∀ e ∈ o, e.Printable) :
    ∃ run, ReadsLike run o ∧ PrintsLike run o ∧
      tokensText run = o.elim [] (fun e => e.text ++ ['\n']) ∧
      (run = [] ∨ ∃ ts b, run = ts ++ [b] ∧ b.kind = .blank ∧ '\n' ∈ b.text) ∧
      ∀ us, Lexed us → (∀ t ∈ us.head?, t.kind ≠ .blank) → Lexed (run ++ us) := by
  cases o with
  | none => exact ⟨[], .nil, rfl, rfl, Or.inl rfl, fun us hus _ => hus⟩
  | some e =>
      obtain ⟨us, is, hphrase, htext, hlike, hprinted⟩ := (ho e rfl).exists_phrase
      refine ⟨us ++ [.newline], hlike.concat_blank rfl, ?_, by simp [htext, Token.newline],
        Or.inr ⟨us, .newline, rfl, rfl, by decide⟩, fun vs hvs hfirst => ?_⟩
      · rw [PrintsLike, hlike.meaning_concat_blank rfl, hprinted]
      · simpa using hphrase.lexed.append_newline hphrase.last hvs hfirst

theorem entryLine?_named (name : Text) (o : Option Expr) :
    entryLine? ⟨some name, o⟩ = some (name ++ ':' :: o.elim [] fun e => ' ' :: e.text) := by
  cases o <;> simp [entryLine?]

/-- The text of a document whose queries all have names. -/
theorem text_of_lines {o : Option Expr} {entries : List (Token × Option Expr)} (hne : entries ≠ [])
    {d : Document} (hd : d = ⟨o, entries.map fun x => ⟨some x.1.text, x.2⟩⟩) :
    d.text = o.elim [] (fun e => e.text ++ ['\n']) ++ Text.join ['\n']
      (entries.map fun x => x.1.text ++ ':' :: x.2.elim [] fun e => ' ' :: e.text) := by
  have hlines : (entries.map fun x => (⟨some x.1.text, x.2⟩ : DocumentEntry)).filterMap entryLine?
      = entries.map fun x => x.1.text ++ ':' :: x.2.elim [] fun e => ' ' :: e.text := by
    rw [List.filterMap_map, ← List.filterMap_eq_map]
    exact List.filterMap_congr fun x _ => entryLine?_named x.1.text x.2
  obtain ⟨x, rest, rfl⟩ := List.exists_cons_of_ne_nil hne
  rw [text, hd, hlines]
  cases o <;> simp [Text.join]

/-- Printed lines below a shared expression are cut into the lines again, and each is read. -/
theorem exists_reading_of_lines {o : Option Expr} (ho : ∀ e ∈ o, e.Printable)
    (entries : List (Token × Option Expr)) (hne : entries ≠ [])
    (hentries : ∀ x ∈ entries, x.1.NamesQuery ∧ ∀ e ∈ x.2, e.Printable) {d : Document}
    (hd : d = ⟨o, entries.map fun x => ⟨some x.1.text, x.2⟩⟩) :
    ∃ (run : List Token) (body : Token × Option Expr → List Token),
      (ReadsLike run o ∧ PrintsLike run o) ∧
      (∀ x ∈ entries, ReadsLike (body x) x.2 ∧ PrintsLike (body x) x.2) ∧
      (parse d.text).faultless = true ∧
      ofTree (parse d.text)
        = ⟨meaning run, entries.map fun x => ⟨some x.1.text, meaning (body x)⟩⟩ := by
  obtain ⟨run, hlike, hprinted, hruntext, hline, hlexed⟩ := exists_printed_domain ho
  -- the tokens of each body are chosen once, so that the text and the tree speak of the same
  have hbodies : ∀ x ∈ entries, ∃ body, PrintedBody body x.2 ∧ PrintsLike body x.2 :=
    fun x hx => exists_printedBody (hentries x hx).2
  choose! body hbody using hbodies
  let lines := entries.map fun x => (x.1, body x)
  have hlines : ∀ line ∈ lines, PrintedLine line := by
    intro line hmem
    obtain ⟨x, hx, rfl⟩ := List.mem_map.1 hmem
    exact ⟨(hentries x hx).1, x.2, (hbody x hx).1⟩
  have hsections : layOut lines ≠ [] := by
    obtain ⟨x, rest, rfl⟩ := List.exists_cons_of_ne_nil hne
    cases rest <;> simp [lines, layOut]
  have htext : d.text = tokensText (run ++ (layOut lines).flatMap Section.tokens) := by
    rw [text_of_lines hne hd, tokensText_append, hruntext, tokensText_layOut, List.map_map]
    congr 2
    exact List.map_congr_left fun x hx => by simp [(hbody x hx).1.text_eq]
  have hlex : Lexed (run ++ (layOut lines).flatMap Section.tokens) :=
    hlexed _ (lexed_layOut hlines) (head?_layOut hlines)
  have hcut := cutAtHeaders_append_sections hlike.held hline (laidOut_layOut hlines)
  refine ⟨run, body, ⟨hlike, hprinted⟩,
    fun x hx => ⟨(hbody x hx).1.readsLike, (hbody x hx).2⟩, ?_, ?_⟩
  · rw [parse, htext, hlex.tokenize_tokensText, faultless_parseTokens_iff, regionsOf, hcut]
    intro region hregion
    rcases List.mem_cons.1 hregion with rfl | hregion
    · exact hlike.faultless
    · obtain ⟨s, hs, rfl⟩ := List.mem_map.1 hregion
      exact faultless_layOut hlines s hs
  · rw [parse, htext, hlex.tokenize_tokensText, ofTree_of_headers hcut hsections,
      map_layOut hlines, List.map_map]
    rfl

/-- Printed lines below a shared expression are read back. -/
theorem ofTree_parse_text_of_lines {o : Option Expr} (ho : ∀ e ∈ o, e.Printable)
    (entries : List (Token × Option Expr)) (hne : entries ≠ [])
    (hentries : ∀ x ∈ entries, x.1.NamesQuery ∧ ∀ e ∈ x.2, e.Printable) {d : Document}
    (hd : d = ⟨o, entries.map fun x => ⟨some x.1.text, x.2⟩⟩) :
    (parse d.text).faultless = true ∧ (ofTree (parse d.text)).normalized = d.normalized := by
  obtain ⟨run, body, ⟨hrun, -⟩, hbody, hfaultless, hread⟩ :=
    exists_reading_of_lines ho entries hne hentries hd
  refine ⟨hfaultless, ?_⟩
  rw [hread, hd]
  simp only [normalized, hrun.map_meaning, List.map_map, Document.mk.injEq, true_and]
  exact List.map_congr_left fun x hx => by simp [(hbody x hx).1.map_meaning]

end Document

/-! ## The document of a text without errors -/

/-- The document of a text without errors is made of expressions that can be printed: one at most,
or a shared one and those of the named queries. -/
theorem Document.printable_ofTree {t : Text} (h : syntaxErrors (parse t) = []) :
    (∃ o : Option Expr, (∀ e ∈ o, e.Printable) ∧
      ofTree (parse t) = ⟨none, o.toList.map fun e => ⟨none, some e⟩⟩) ∨
    ∃ (o : Option Expr) (entries : List (Token × Option Expr)), (∀ e ∈ o, e.Printable) ∧
      entries ≠ [] ∧ (∀ x ∈ entries, x.1.NamesQuery ∧ ∀ e ∈ x.2, e.Printable) ∧
      ofTree (parse t) = ⟨o, entries.map fun x => ⟨some x.1.text, x.2⟩⟩ := by
  have hregions : ∀ {ts : List Token}, ts ∈ regionsOf (tokenize t) →
      (∃ tree, Reads ts tree) ∧ ∀ e ∈ meaning ts, e.Printable := by
    intro ts hts
    obtain ⟨⟨tree, htree⟩, hlexed⟩ := reads_of_mem_regionsOf h hts
    exact ⟨⟨tree, htree⟩, fun e he => htree.printable hlexed he⟩
  rcases hcut : cutAtHeaders (tokenize t) with ⟨run, sections⟩
  rw [regionsOf, hcut] at hregions
  obtain ⟨⟨tree, htree⟩, hrun⟩ := hregions List.mem_cons_self
  by_cases hne : sections = []
  · subst hne
    exact Or.inl ⟨meaning run, hrun, ofTree_of_no_header hcut htree⟩
  · refine Or.inr ⟨meaning run, sections.map fun s => (s.name, meaning s.body), hrun,
      by simpa using hne, ?_, by rw [parse, ofTree_of_headers hcut hne, List.map_map]; rfl⟩
    intro x hx
    obtain ⟨s, hs, rfl⟩ := List.mem_map.1 hx
    have hsection : s ∈ (cutFrom true true (tokenize t)).2 := by
      rw [← cutAtHeaders, hcut]
      exact hs
    obtain ⟨hmem, hword, halias⟩ := name_of_mem_cutFrom hsection
    exact ⟨⟨isLexeme_of_mem_tokenize hmem, hword, halias⟩,
      (hregions (List.mem_cons_of_mem _ (List.mem_map_of_mem hs))).2⟩

/-- **A document that was read from a text is printed so that it is read back.** Printing a
document gives a text without syntax errors, and what is read from it has the same shared
expression and the same queries, in their normal form. -/
theorem Document.ofTree_parse_text (t : Text) (h : syntaxErrors (parse t) = []) :
    syntaxErrors (parse (Document.ofTree (parse t)).text) = [] ∧
      (Document.ofTree (parse (Document.ofTree (parse t)).text)).normalized
        = (Document.ofTree (parse t)).normalized := by
  rw [syntaxErrors_eq_nil_iff]
  -- without headers one expression is printed, and else a line for each of them
  obtain ⟨o, ho, hd⟩ | ⟨o, entries, ho, hne, hentries, hd⟩ := printable_ofTree h
  · exact ofTree_parse_text_of_expr ho hd
  · exact ofTree_parse_text_of_lines ho entries hne hentries hd

/-- A text with a shared expression and a query of bare words. -/
theorem Document.ofTree_parse_text_bare_words :
    syntaxErrors (parse "t:elf\nq: a (b or c)\n".toList) = [] ∧
      (syntaxErrors (parse (Document.ofTree (parse "t:elf\nq: a (b or c)\n".toList)).text) = [] ∧
        (Document.ofTree (parse (Document.ofTree
          (parse "t:elf\nq: a (b or c)\n".toList)).text)).normalized
          = (Document.ofTree (parse "t:elf\nq: a (b or c)\n".toList)).normalized) :=
  have h : syntaxErrors (parse "t:elf\nq: a (b or c)\n".toList) = [] := by decide +kernel
  ⟨h, Document.ofTree_parse_text _ h⟩

end CardQuery
