import CardQuery.Json.Catalog
import CardQuery.Json.Expr
import CardQuery.Json.Query
import CardQuery.Json.Settings
import CardQuery.Proofs.Editor.Positions
import CardQuery.Proofs.Json.Arrangement

/-!
# What is written is read back

Expressions, documents, queries, requests, settings and catalogs are written as JSON and read from
it. Each record has fields that no name fits two of, and a field is left out only where a missing
one is read as no value. A catalog writes all its lists, so reading it needs no initial values.

Main statement: all of them are read back as they were, whatever the order of the members
(`Json.reads_back`).
-/

set_option autoImplicit false

namespace CardQuery

open Json (Fits ReadsBack Rearranges RoundTrips membersOf)

variable {arrange : List (Text × Json) → List (Text × Json)}

/-! ## Tags -/

namespace QueryTag

/-- The values of the fields of a tag. -/
def values (t : QueryTag) : List (String × Option Json) :=
  [("prefix", t.sign.map .string), ("argument", some (.string t.argument)),
   ("operator", some (.string t.operator)), ("value", some (.string t.value))]

theorem toJson_eq (t : QueryTag) : t.toJson = .object (membersOf t.values) := by
  rcases t with ⟨_ | sign, argument, operator, value⟩ <;> rfl

theorem readsBack (harrange : Rearranges arrange) (t : QueryTag) :
    ReadsBack arrange toJson ofJson? t := by
  have hfits : Fits fields t.values := by
    simp [Fits, fields, values, Json.Field.required, Json.Field.optional]
  have hsign := ReadsBack.optionalMember (o := t.sign) rfl
    fun s _ => Json.readsBack_text arrange s
  refine .record harrange t.toJson_eq hfits (by decide) fun j hrecord => ?_
  rw [ofJson?, hrecord]
  simp only [values, List.map_cons, List.map_nil, hsign]
  simp [Json.required?, Json.text?]

end QueryTag

/-! ## Expressions -/

namespace Connective

theorem ofJson?_name (op : Connective) : ofJson? (.ofString op.name) = some op := by
  cases op <;> decide

end Connective

namespace ExprForm

/-- Whether a reader of forms knows them by their names. -/
def KnowsNames (form? : Json → Option ExprForm) : Prop :=
  ∀ form : ExprForm, form? (.ofString form.name) = some form

theorem knowsNames_named? : KnowsNames named? := by
  intro form
  cases form <;> decide

theorem knowsNames_namedOrNumbered? : KnowsNames namedOrNumbered? := by
  intro form
  cases form <;> decide

end ExprForm

namespace Expr

theorem membersOfJson_eq_map (ms : List (Text × Json)) :
    membersOfJson ms = ms.map fun m => ⟨m.1, m.2, partOfJson? m.2⟩ := by
  induction ms with
  | nil => simp [membersOfJson]
  | cons m ms ih => rw [membersOfJson, ih, List.map_cons]

theorem member?_perm {ms ms' : List Member} (h : ms.Perm ms') (name : String) :
    member? ms name = member? ms' name := by
  rw [member?, member?]
  rcases Json.eq_or_several_of_perm (h.filter fun m => m.name = name.toList) with
    heq | ⟨⟨a, b, rest, hms⟩, a', b', rest', hms'⟩
  · rw [heq]
  · rw [hms, hms']

/-- The order of its members does not matter to an expression. -/
theorem ofMembers?_perm (form? : Json → Option ExprForm) {ms ms' : List Member}
    (h : ms.Perm ms') : ofMembers? form? ms = ofMembers? form? ms' := by
  have hmember : member? ms = member? ms' := funext (member?_perm h)
  rw [ofMembers?, ofMembers?, hmember]

/-- The expression that JSON describes, with its form read by `form?`. -/
def readBy (form? : Json → Option ExprForm) : Json → Option Expr
  | .object members => ofMembers? form? (membersOfJson members)
  | _ => none

theorem ofJson?_eq (j : Json) : ofJson? j = readBy ExprForm.named? j := by
  cases j <;> rfl

theorem partOfJson?_eq (j : Json) : partOfJson? j = readBy ExprForm.namedOrNumbered? j := by
  cases j <;> simp [partOfJson?, readBy]

/-- An expression is read from its members, however they are arranged. -/
theorem readBy_rearranged (harrange : Rearranges arrange) (form? : Json → Option ExprForm)
    (members : List (Text × Json)) :
    readBy form? ((Json.object members).rearranged arrange)
      = ofMembers? form? (members.map fun m =>
          ⟨m.1, m.2.rearranged arrange, partOfJson? (m.2.rearranged arrange)⟩) := by
  rw [Json.rearranged_object, readBy, membersOfJson_eq_map,
    ofMembers?_perm form? ((harrange _).map _), List.map_map]
  rfl

/-- **An expression is read back,** inside another one or by itself. -/
theorem readBy_toJson (harrange : Rearranges arrange) (e : Expr)
    {form? : Json → Option ExprForm} (hform : ExprForm.KnowsNames form?) :
    readBy form? (e.toJson.rearranged arrange) = some e := by
  -- a part is read by the same rule, only that its form may also be a number
  have hpart : ∀ e : Expr, (∀ {form? : Json → Option ExprForm}, ExprForm.KnowsNames form? →
      readBy form? (e.toJson.rearranged arrange) = some e) →
      partOfJson? (e.toJson.rearranged arrange) = some e := by
    intro e he
    rw [partOfJson?_eq]
    exact he ExprForm.knowsNames_namedOrNumbered?
  induction e generalizing form? with
  | tag t =>
      have htag := hform .tag
      have ht : QueryTag.ofJson? (t.toJson.rearranged arrange) = some t := t.readsBack harrange
      rw [toJson, Json.ofMembers, readBy_rearranged harrange]
      simp [ofMembers?, member?, Json.ofString] at htag ⊢
      simp [htag, ht]
  | binary op l r ihl ihr =>
      have hbinary := hform .binary
      have hop := Connective.ofJson?_name op
      have hl := hpart l ihl
      have hr := hpart r ihr
      rw [toJson, Json.ofMembers, readBy_rearranged harrange]
      simp [ofMembers?, member?, Json.ofString] at hbinary hop ⊢
      simp [hbinary, hop, hl, hr]
  | clause e ih =>
      have hclause := hform .clause
      have he := hpart e ih
      rw [toJson, Json.ofMembers, readBy_rearranged harrange]
      simp [ofMembers?, member?, Json.ofString] at hclause ⊢
      simp [hclause, he]

theorem readsBack (harrange : Rearranges arrange) (e : Expr) :
    ReadsBack arrange toJson ofJson? e := by
  rw [ReadsBack, ofJson?_eq]
  exact e.readBy_toJson harrange ExprForm.knowsNames_named?

end Expr

/-! ## Documents -/

namespace DocumentEntry

/-- The values of the fields of an entry. -/
def values (q : DocumentEntry) : List (String × Option Json) :=
  [("name", some (.ofOption .string q.name)), ("expr", some (.ofOption Expr.toJson q.expr))]

theorem readsBack (harrange : Rearranges arrange) (q : DocumentEntry) :
    ReadsBack arrange toJson ofJson? q := by
  have hfits : Fits fields q.values := by
    simp [Fits, fields, values, Json.Field.keyed]
  have hname := ReadsBack.ofOption (o := q.name) rfl
    fun s _ => Json.readsBack_text arrange s
  have hexpr := ReadsBack.ofOption (o := q.expr) rfl fun e _ => e.readsBack harrange
  refine .record harrange rfl hfits (by decide) fun j hrecord => ?_
  rw [ofJson?, hrecord]
  simp only [values, List.map_cons, List.map_nil, Option.map_some, hname, hexpr]
  rfl

end DocumentEntry

namespace Document

/-- The values of the fields of a document. -/
def values (d : Document) : List (String × Option Json) :=
  [("domain", some (.ofOption Expr.toJson d.domain)),
   ("queries", some (.array (d.entries.map DocumentEntry.toJson)))]

theorem readsBack (harrange : Rearranges arrange) (d : Document) :
    ReadsBack arrange toJson ofJson? d := by
  have hfits : Fits fields d.values := by
    simp [Fits, fields, values, Json.Field.keyed, Json.Field.required]
  have hdomain := ReadsBack.ofOption (o := d.domain) rfl fun e _ => e.readsBack harrange
  have hentries := ReadsBack.list (l := d.entries) fun q _ => q.readsBack harrange
  rw [ReadsBack] at hentries
  refine .record harrange rfl hfits (by decide) fun j hrecord => ?_
  rw [ofJson?, hrecord]
  simp only [values, List.map_cons, List.map_nil, Option.map_some, hdomain, hentries,
    Json.required?]
  rfl

end Document

/-! ## Queries and requests -/

namespace QuerySettings

/-- The values of the fields of the settings. -/
def values (s : QuerySettings) : List (String × Option Json) :=
  [("order", s.order.map .string), ("dir", s.dir.map .string), ("unique", s.unique.map .string)]

theorem ofFields?_values (arrange : List (Text × Json) → List (Text × Json)) (s : QuerySettings) :
    ofFields? ((s.order.map .string).map (Json.rearranged arrange))
      ((s.dir.map .string).map (Json.rearranged arrange))
      ((s.unique.map .string).map (Json.rearranged arrange)) = some s := by
  have hgiven : ∀ o : Option Text,
      Json.optional? Json.text? ((o.map .string).map (Json.rearranged arrange)) = some o :=
    fun o => ReadsBack.optionalMember rfl fun t _ => Json.readsBack_text arrange t
  rw [ofFields?, hgiven, hgiven, hgiven]
  rfl

theorem readsBack (harrange : Rearranges arrange) (s : QuerySettings) :
    ReadsBack arrange toJson ofJson? s := by
  have hjson : s.toJson = .object (membersOf s.values) := by
    rcases s with ⟨_ | order, _ | dir, _ | unique⟩ <;> rfl
  have hfits : Fits fields s.values := by
    simp [Fits, fields, values, Json.Field.optional]
  refine .record harrange hjson hfits (by decide) fun j hrecord => ?_
  rw [ofJson?, hrecord]
  exact ofFields?_values arrange s

end QuerySettings

namespace Segment

/-- Whether the ends of a segment can be read: an offset is a number of 32 bits. -/
def OffsetsFit (s : Segment) : Prop :=
  s.start ≤ maxOffset ∧ s.stop ≤ maxOffset

/-- The values of the fields of a segment. -/
def values (s : Segment) : List (String × Option Json) :=
  [("text", some (.string s.text)), ("mergedTextNoSetting", some (.string s.filter)),
   ("from", some (.ofNat s.start)), ("to", some (.ofNat s.stop)),
   ("settings", some s.settings.toJson)]

theorem readsBack (harrange : Rearranges arrange) {s : Segment} (h : s.OffsetsFit) :
    ReadsBack arrange toJson ofJson? s := by
  have hfits : Fits fields s.values := by
    simp [Fits, fields, values, Json.Field.required]
  have hstart := Json.readsBack_offset arrange h.1
  have hstop := Json.readsBack_offset arrange h.2
  have hsettings := s.settings.readsBack harrange
  rw [ReadsBack] at hstart hstop hsettings
  refine .record harrange rfl hfits (by decide) fun j hrecord => ?_
  rw [ofJson?, hrecord]
  simp only [values, List.map_cons, List.map_nil, Option.map_some, hstart, hstop, hsettings,
    Json.required?, Json.rearranged_string, Json.text?]
  rfl

end Segment

namespace QueryName

/-- Whether the ends of a name can be read. -/
def OffsetsFit (n : QueryName) : Prop :=
  n.start ≤ maxOffset ∧ n.stop ≤ maxOffset

/-- The values of the fields of a name. -/
def values (n : QueryName) : List (String × Option Json) :=
  [("text", some (.string n.text)), ("from", some (.ofNat n.start)), ("to", some (.ofNat n.stop))]

theorem readsBack (harrange : Rearranges arrange) {n : QueryName} (h : n.OffsetsFit) :
    ReadsBack arrange toJson ofJson? n := by
  have hfits : Fits fields n.values := by
    simp [Fits, fields, values, Json.Field.required]
  have hstart := Json.readsBack_offset arrange h.1
  have hstop := Json.readsBack_offset arrange h.2
  rw [ReadsBack] at hstart hstop
  refine .record harrange rfl hfits (by decide) fun j hrecord => ?_
  rw [ofJson?, hrecord]
  simp only [values, List.map_cons, List.map_nil, Option.map_some, hstart, hstop, Json.required?,
    Json.rearranged_string, Json.text?]
  rfl

end QueryName

namespace Query

/-- Whether all offsets of a query can be read. -/
def OffsetsFit (q : Query) : Prop :=
  (∀ n ∈ q.name, n.OffsetsFit) ∧ q.body.OffsetsFit

/-- The values of the fields of a query. -/
def values (q : Query) : List (String × Option Json) :=
  [("name", some (.ofOption QueryName.toJson q.name)), ("body", some q.body.toJson)]

theorem readsBack (harrange : Rearranges arrange) {q : Query} (h : q.OffsetsFit) :
    ReadsBack arrange toJson ofJson? q := by
  have hfits : Fits fields q.values := by
    simp [Fits, fields, values, Json.Field.keyed, Json.Field.required]
  have hname := ReadsBack.ofOption (o := q.name) rfl
    fun n hn => QueryName.readsBack harrange (h.1 n hn)
  have hbody := Segment.readsBack harrange h.2
  rw [ReadsBack] at hbody
  refine .record harrange rfl hfits (by decide) fun j hrecord => ?_
  rw [ofJson?, hrecord]
  simp only [values, List.map_cons, List.map_nil, Option.map_some, hname, hbody, Json.required?]
  rfl

end Query

namespace QueryDocument

/-- Whether all offsets of a document can be read. -/
def OffsetsFit (d : QueryDocument) : Prop :=
  (∀ s ∈ d.domain, s.OffsetsFit) ∧ ∀ q ∈ d.queries, q.OffsetsFit

/-- The values of the fields of a document. -/
def values (d : QueryDocument) : List (String × Option Json) :=
  [("domain", some (.ofOption Segment.toJson d.domain)),
   ("queries", some (.array (d.queries.map Query.toJson)))]

/-- The offsets of what a text asks fit if the text does. -/
theorem offsetsFit_ofTree {t : Text} (h : t.width ≤ maxOffset) :
    (ofTree (parse t)).OffsetsFit := by
  obtain ⟨hnames, hbodies, hdomain⟩ := ofTree_holds t
  have hfit : ∀ {s : Span}, s.IsUsable t → s.start ≤ maxOffset ∧ s.stop ≤ maxOffset := by
    intro s hs
    have hstop := hs.stop_le_width.trans h
    exact ⟨hs.start_le_stop.trans hstop, hstop⟩
  refine ⟨fun s hs => hfit (hdomain s hs).toIsUsable, fun q hq => ⟨?_, ?_⟩⟩
  · exact fun n hn => hfit (hnames q hq n hn).toIsUsable
  · exact hfit (hbodies q hq).toIsUsable

theorem readsBack (harrange : Rearranges arrange) (d : QueryDocument) (h : d.OffsetsFit) :
    ReadsBack arrange toJson ofJson? d := by
  have hfits : Fits fields d.values := by
    simp [Fits, fields, values, Json.Field.keyed, Json.Field.required]
  have hdomain := ReadsBack.ofOption (o := d.domain) rfl
    fun s hs => Segment.readsBack harrange (h.1 s hs)
  have hqueries := ReadsBack.list (l := d.queries) fun q hq => Query.readsBack harrange (h.2 q hq)
  rw [ReadsBack] at hqueries
  refine .record harrange rfl hfits (by decide) fun j hrecord => ?_
  rw [ofJson?, hrecord]
  simp only [values, List.map_cons, List.map_nil, Option.map_some, hdomain, hqueries,
    Json.required?]
  rfl

end QueryDocument

namespace SearchRequest

/-- The values of the fields of a request. -/
def values (r : SearchRequest) : List (String × Option Json) :=
  ("q", some (.string r.filter)) :: r.settings.values

theorem readsBack (harrange : Rearranges arrange) (r : SearchRequest) :
    ReadsBack arrange toJson ofJson? r := by
  have hjson : r.toJson = .object (membersOf r.values) := by
    rcases r with ⟨filter, _ | order, _ | dir, _ | unique⟩ <;> rfl
  have hfits : Fits fields r.values := by
    simp [Fits, fields, values, QuerySettings.fields, QuerySettings.values, Json.Field.optional,
      Json.Field.required]
  have hsettings := QuerySettings.ofFields?_values arrange r.settings
  refine .record harrange hjson hfits (by decide) fun j hrecord => ?_
  rw [ofJson?, hrecord]
  simp only [values, QuerySettings.values, List.map_cons, List.map_nil, hsettings]
  simp [Json.required?, Json.text?]

end SearchRequest

/-! ## Catalogs and editor settings -/

namespace SetInfo

/-- The values of the fields of a set. -/
def values (s : SetInfo) : List (String × Option Json) :=
  [("code", some (.string s.code)), ("name", some (.string s.name)),
   ("released", s.released.map .string)]

theorem readsBack (harrange : Rearranges arrange) (s : SetInfo) :
    ReadsBack arrange toJson ofJson? s := by
  have hjson : s.toJson = .object (membersOf s.values) := by
    rcases s with ⟨code, name, _ | released⟩ <;> rfl
  have hfits : Fits fields s.values := by
    simp [Fits, fields, values, Json.Field.required]
  have hreleased := ReadsBack.optionalMember (o := s.released) rfl
    fun t _ => Json.readsBack_text arrange t
  refine .record harrange hjson hfits (by decide) fun j hrecord => ?_
  rw [ofJson?, hrecord]
  simp only [values, List.map_cons, List.map_nil, hreleased]
  simp [Json.required?, Json.text?]

end SetInfo

namespace EditorSettings

/-- The values of the fields of the settings. -/
def values (s : EditorSettings) : List (String × Option Json) :=
  [("autoDetail", some (.bool s.autoDetail)), ("autoInfo", some (.bool s.autoInfo))]

theorem readsBack (harrange : Rearranges arrange) (s : EditorSettings) :
    ReadsBack arrange toJson ofJson? s := by
  have hfits : Fits fields s.values := by
    simp [Fits, fields, values, Json.Field.optional]
  refine .record harrange rfl hfits (by decide) fun j hrecord => ?_
  rw [ofJson?, hrecord]
  simp [values, Json.orElse?, Json.bool?]

end EditorSettings

theorem CatalogColumn.texts_read? (name : String) (get : Catalog → List Text)
    (set : List Text → Catalog → Catalog) (c base : Catalog) :
    (texts name get set).read? (((texts name get set).write c).rearranged arrange) base
      = some (set (get c) base) := by
  have hlist : Json.list? Json.text? (Json.rearranged arrange (.array ((get c).map .string)))
      = some (get c) := ReadsBack.list fun t _ => Json.readsBack_text arrange t
  show (Json.list? Json.text? _).map _ = _
  rw [texts, hlist, Option.map_some]

namespace Catalog

/-- The values of the lists of a catalog. -/
def values (c : Catalog) : List (String × Option Json) :=
  columns.map fun col => (col.name, some (col.write c))

/-- **What is written of a catalog replaces all lists of any other one.** -/
theorem readColumns?_values (harrange : Rearranges arrange) (c base : Catalog) :
    readColumns? base (columns.zip (c.values.map fun v => v.2.map (Json.rearranged arrange)))
      = some c := by
  have hsets : Json.list? SetInfo.ofJson?
      (Json.rearranged arrange (.array (c.sets.map SetInfo.toJson))) = some c.sets :=
    ReadsBack.list fun s _ => s.readsBack harrange
  simp only [values, columns, List.map_cons, List.map_nil, List.zip_cons_cons, readColumns?,
    Option.map_some, CatalogColumn.texts_read?, hsets, Option.bind_some]
  rfl

theorem readsBack (harrange : Rearranges arrange) (c : Catalog) :
    ReadsBack arrange toJson ofJson? c := by
  -- every list is written, an empty one too, so none keeps its initial values
  have hfits : Fits (columns.map fun col => .optional col.name) c.values := by
    rw [Fits, values, List.forall₂_map_left_iff, List.forall₂_map_right_iff, List.forall₂_same]
    intro col _
    simp [Json.Field.optional]
  refine .record harrange rfl hfits (by decide) fun j hrecord => ?_
  rw [ofJson?, hrecord]
  exact c.readColumns?_values harrange initial

end Catalog

/-! ## The main statement -/

/-- **What is written is read back,** whether the members of each object come as they were written
or in any other order. Offsets are numbers of 32 bits; only a text of 4 GiB or more has others. -/
theorem Json.reads_back :
    (∀ e : Expr, RoundTrips Expr.toJson Expr.ofJson? e) ∧
    (∀ d : Document, RoundTrips Document.toJson Document.ofJson? d) ∧
    (∀ d : QueryDocument, d.OffsetsFit → RoundTrips QueryDocument.toJson QueryDocument.ofJson? d) ∧
    (∀ r : SearchRequest, RoundTrips SearchRequest.toJson SearchRequest.ofJson? r) ∧
    (∀ s : QuerySettings, RoundTrips QuerySettings.toJson QuerySettings.ofJson? s) ∧
    (∀ c : Catalog, RoundTrips Catalog.toJson Catalog.ofJson? c) ∧
    ∀ s : EditorSettings, RoundTrips EditorSettings.toJson EditorSettings.ofJson? s := by
  refine ⟨?_, ?_, ?_, ?_, ?_, ?_, ?_⟩
  · exact fun e => .of_readsBack fun harrange => e.readsBack harrange
  · exact fun d => .of_readsBack fun harrange => d.readsBack harrange
  · exact fun d hd => .of_readsBack fun harrange => d.readsBack harrange hd
  · exact fun r => .of_readsBack fun harrange => r.readsBack harrange
  · exact fun s => .of_readsBack fun harrange => s.readsBack harrange
  · exact fun c => .of_readsBack fun harrange => c.readsBack harrange
  · exact fun s => .of_readsBack fun harrange => s.readsBack harrange

/-- The queries of a text with a domain, a query with a name and settings in both. -/
theorem Json.reads_back_named :
    let d := QueryDocument.ofTree (parse "f=edh order:cmc\nelves: t=elf dir:asc".toList)
    d.OffsetsFit ∧ RoundTrips QueryDocument.toJson QueryDocument.ofJson? d := by
  intro d
  have hd : d.OffsetsFit := QueryDocument.offsetsFit_ofTree (by decide)
  exact ⟨hd, Json.reads_back.2.2.1 d hd⟩

end CardQuery
