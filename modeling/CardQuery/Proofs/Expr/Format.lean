import CardQuery.Proofs.Expr.RoundTrip

/-!
# Formatting

To format a text is to print the document that is read from it. The parentheses that printing puts
in are read back as clauses and a row is read back leaning to the left, so formatting again prints
a document that is another one in general. It is printed as the same text.

Main statement: formatting twice is formatting once (`Document.format_idempotent`).
-/

set_option autoImplicit false

namespace CardQuery

namespace Document

/-- The line of a query by its name and the text of its expression. -/
def line? : Option Text × Option Text → Option Text
  | (some name, some t) => some (name ++ [':', ' '] ++ t)
  | (some name, none) => some (name ++ [':'])
  | (none, o) => o

theorem entryLine?_eq (q : DocumentEntry) :
    entryLine? q = line? (q.name, q.expr.map Expr.text) := by
  rcases q with ⟨name, expr⟩
  cases name <;> cases expr <;> rfl

/-- The text of a document depends on its names and on the texts of its expressions alone. -/
theorem text_congr {d d' : Document} (hdomain : d.domain.map Expr.text = d'.domain.map Expr.text)
    (hentries : d.entries.map (fun q => (q.name, q.expr.map Expr.text))
      = d'.entries.map fun q => (q.name, q.expr.map Expr.text)) : d.text = d'.text := by
  have hlines : ∀ d : Document, d.entries.filterMap entryLine?
      = (d.entries.map fun q => (q.name, q.expr.map Expr.text)).filterMap line? := by
    intro d
    rw [List.filterMap_map]
    exact List.filterMap_congr fun q _ => entryLine?_eq q
  rw [text, text, hlines, hlines, hentries, ← Option.toList_map, ← Option.toList_map, hdomain]

/-- What is read from a printed expression without a name is printed alike. -/
theorem text_ofTree_of_expr {o : Option Expr} (ho : ∀ e ∈ o, e.Printable) {d : Document}
    (hd : d = ⟨none, o.toList.map fun e => ⟨none, some e⟩⟩) :
    (ofTree (parse d.text)).text = d.text := by
  obtain ⟨us, -, hprinted, -, hread⟩ := exists_reading_of_expr ho hd
  have hentry : ∀ o : Option Expr,
      (o.toList.map fun e => (⟨none, some e⟩ : DocumentEntry)).map
          (fun q => (q.name, q.expr.map Expr.text))
        = (o.map Expr.text).toList.map fun t => (none, some t) := by
    intro o
    cases o <;> rfl
  refine text_congr ?_ ?_
  · rw [hread, hd]
  · rw [hread, hd, hentry, hentry, hprinted]

/-- What is read from printed lines below a shared expression is printed alike. -/
theorem text_ofTree_of_lines {o : Option Expr} (ho : ∀ e ∈ o, e.Printable)
    (entries : List (Token × Option Expr)) (hne : entries ≠ [])
    (hentries : ∀ x ∈ entries, x.1.NamesQuery ∧ ∀ e ∈ x.2, e.Printable) {d : Document}
    (hd : d = ⟨o, entries.map fun x => ⟨some x.1.text, x.2⟩⟩) :
    (ofTree (parse d.text)).text = d.text := by
  obtain ⟨run, body, ⟨-, hrun⟩, hbody, -, hread⟩ :=
    exists_reading_of_lines ho entries hne hentries hd
  refine text_congr ?_ ?_
  · rw [hread, hd]
    exact hrun
  · rw [hread, hd, List.map_map, List.map_map]
    refine List.map_congr_left fun x hx => ?_
    have hx : (meaning (body x)).map Expr.text = x.2.map Expr.text := (hbody x hx).2
    exact congrArg (Prod.mk (some x.1.text)) hx

/-- **Formatting twice is formatting once.** The text that the document of a text without syntax
errors is printed as is the text that its own document is printed as, to the last parenthesis and
line break. -/
theorem format_idempotent (t : Text) (h : syntaxErrors (parse t) = []) :
    (ofTree (parse (ofTree (parse t)).text)).text = (ofTree (parse t)).text := by
  obtain ⟨o, ho, hd⟩ | ⟨o, entries, ho, hne, hentries, hd⟩ := printable_ofTree h
  · exact text_ofTree_of_expr ho hd
  · exact text_ofTree_of_lines ho entries hne hentries hd

/-- A text in which printing puts parentheses around an operand, and with a query that asks
nothing. -/
theorem format_idempotent_parens :
    syntaxErrors (parse "a b or c\nq: ()\n".toList) = [] ∧
      (ofTree (parse (ofTree (parse "a b or c\nq: ()\n".toList)).text)).text
        = (ofTree (parse "a b or c\nq: ()\n".toList)).text :=
  have h : syntaxErrors (parse "a b or c\nq: ()\n".toList) = [] := by decide +kernel
  ⟨h, format_idempotent _ h⟩

end Document

end CardQuery
