import CardQuery.Proofs.Query.Residue
import CardQuery.Query.Request

/-!
# What a search request asks for

A request puts the filters of the domain and of a query into parentheses, side by side, so that an
`or` at the top of either stays where it belongs. When one of the filters is empty the other stands
alone. Either way the request asks what both of them ask together.

Main statement: `QueryDocument.requests_ask`.
-/

set_option autoImplicit false

namespace CardQuery

/-! ## Parentheses around a filter -/

/-- A clause around an expression, if there is one. -/
def clauseOf (t : Option Tree) : Tree :=
  .node .clause (.token .leftParen :: (t.toList ++ [.token .rightParen]))

theorem Reads.eq_none {t : Option Tree} (h : Reads [] t) : t = none := by
  have hnil : ([] : List Tree) = t.toList := h.squeezeEach_regionTrees
  cases t with
  | none => rfl
  | some t => cases hnil

/-- What is read in parentheses is a clause. -/
theorem Reads.shape_clauseOf {ts : List Token} {is : List Item} {t : Option Tree} (h : Reads ts t)
    (hs : Spells ts is) :
    Shape .term (clauseOf t) ∧
      (clauseOf t).yield = solid (.opening .leftParen :: is ++ [.closing .rightParen]) ∧
      (clauseOf t).lower = (t.bind Tree.lower).map .clause := by
  cases t with
  | none =>
      obtain ⟨js, hjs, hnil⟩ := h
      obtain rfl : is = js := hs.items_eq.symm.trans hjs.items_eq
      refine ⟨.empty rfl rfl, ?_, Shape.lower_empty _ _⟩
      rw [solid_parens, hnil]
      exact Tree.yield_empty rfl rfl
  | some t =>
      obtain ⟨js, hjs, hshape, hyield⟩ := h
      obtain rfl : is = js := hs.items_eq.symm.trans hjs.items_eq
      refine ⟨.clause rfl rfl hshape, ?_, Shape.lower_clause hshape⟩
      rw [solid_parens, hyield]
      exact Tree.yield_parens rfl rfl t

theorem rel_map_clause (o : Option Expr) : Option.Rel Expr.Alike (o.map .clause) o := by
  cases o with
  | none => exact .none
  | some e => exact .some (.clause e)

/-- **Two filters are put together to a text that asks what both ask.** -/
theorem Remainder.asks_conjoin {ts us : List Token} {is js : List Item} {t u : Option Tree}
    (hts : Remainder ts is) (hus : Remainder us js) (ht : Reads ts t) (hu : Reads us u) :
    Asks (SearchRequest.conjoin (tokensText ts) (tokensText us))
      (Expr.combine? .and (t.bind Tree.lower) (u.bind Tree.lower)) := by
  rcases hts with ⟨rfl, rfl⟩ | hleft
  · rw [ht.eq_none]
    exact hus.asks hu rfl
  rcases hus with ⟨rfl, rfl⟩ | hright
  · have hconjoin : SearchRequest.conjoin (tokensText ts) (tokensText []) = tokensText ts := by
      cases htext : tokensText ts <;> rfl
    have hcombine : Expr.combine? .and (t.bind Tree.lower) none = t.bind Tree.lower := by
      cases t.bind Tree.lower <;> rfl
    rw [hu.eq_none, hconjoin, Option.bind_none, hcombine]
    exact hleft.remainder.asks ht rfl
  -- both are in parentheses, with a space in between
  obtain ⟨hl, hlyield, hllower⟩ := ht.shape_clauseOf hleft.spells
  obtain ⟨hr, hryield, hrlower⟩ := hu.shape_clauseOf hright.spells
  have hphrase := hleft.parens.join hright.parens
  have hrow : Shape (.row .and) (.node (.binary .and) [clauseOf t, clauseOf u]) :=
    .join (k := none) (.ofTerm hl) (by simp [Joins]) hr
  have hreads : Reads _ (some (.node (.binary .and) [clauseOf t, clauseOf u])) :=
    hphrase.reads (.ofAnd hrow) (by
      rw [solid_append, solid_cons_blank, Tree.yield_binary]
      simp only [Tree.yieldEach_cons, Tree.yieldEach_nil, List.append_nil, hlyield, hryield])
  have htext : tokensText ((.leftParen :: ts ++ [.rightParen])
      ++ .space :: (.leftParen :: us ++ [.rightParen]))
      = SearchRequest.conjoin (tokensText ts) (tokensText us) := by
    have hts : (tokensText ts).isEmpty = false := by simpa using hleft.tokensText_ne_nil
    have hus : (tokensText us).isEmpty = false := by simpa using hright.tokensText_ne_nil
    rw [SearchRequest.conjoin, hts, hus]
    simp [Token.leftParen, Token.rightParen, Token.space]
  rw [← htext]
  refine hphrase.remainder.asks hreads ?_
  have hlower : (Tree.node (.binary .and) [clauseOf t, clauseOf u]).lower
      = Expr.combine? .and (clauseOf t).lower (clauseOf u).lower :=
    @Shape.lower_join .and none _ _ _ _ hl hr
  calc ((some (Tree.node (.binary .and) [clauseOf t, clauseOf u])).bind Tree.lower).map
        Expr.normalized
      = (Expr.combine? .and (clauseOf t).lower (clauseOf u).lower).map Expr.normalized := by
        rw [Option.bind_some, hlower]
    _ = (Expr.combine? .and ((t.bind Tree.lower).map .clause)
          ((u.bind Tree.lower).map .clause)).map Expr.normalized := by rw [hllower, hrlower]
    _ = (Expr.combine? .and (t.bind Tree.lower) (u.bind Tree.lower)).map Expr.normalized :=
        Expr.map_normalized_combine? (rel_map_clause _) (rel_map_clause _)

/-! ## Requests -/

/-- A request asks what is left of the domain together with what is left of the query. -/
theorem asks_ofQuery {domain : Option Tree} {shared : Option Segment} {body : Tree} {q : Query}
    (hdomain : Option.Rel IsSegment domain shared) (hshared : ∀ r ∈ domain, SoundRegion r)
    (hbody : IsSegment body q.body) (hsound : SoundRegion body) :
    Asks (SearchRequest.ofQuery q shared).filter
      (Expr.combine? .and (domain.bind fun r => r.pruneRegion.expr?) body.pruneRegion.expr?) := by
  obtain ⟨us, js, u, hus, -, hu, hutext, huasks⟩ := hbody.exists_residue hsound
  have hown : q.body.filter.trim = tokensText us := by rw [← hutext, hus.trim_tokensText]
  rw [← huasks]
  cases hdomain with
  | none =>
      rw [SearchRequest.ofQuery, hown]
      exact hus.asks hu rfl
  | @some r s hsegment =>
      obtain ⟨ts, is, t, hts, -, ht, httext, htasks⟩ := hsegment.exists_residue (hshared r rfl)
      have htrim : s.filter.trim = tokensText ts := by rw [← httext, hts.trim_tokensText]
      rw [SearchRequest.ofQuery, hown, Option.bind_some, ← htasks]
      simp only [htrim]
      exact hts.asks_conjoin hus ht hu

/-- **Every request asks what the domain and its own query ask together.** The settings are left
out of both, and no other query has a part in it. -/
theorem QueryDocument.requests_ask (t : Text) (h : syntaxErrors (parse t) = []) :
    List.Forall₂
      (fun body request => Asks request.filter
        (Expr.combine? .and ((parse t).domain?.bind fun r => r.pruneRegion.expr?)
          body.pruneRegion.expr?))
      (parse t).bodyRegions (ofTree (parse t)).requests := by
  have hprogram := soundProgram_parse h
  have hsound : ∀ body ∈ (parse t).bodyRegions, SoundRegion body :=
    fun body hbody => hprogram.soundRegion_of_mem_bodyRegions hbody
  have hbodies := List.forall₂_map_right_iff.1 (forall₂_bodies hprogram)
  have hboth := (List.forall₂_and_left _ _).2 ⟨hsound, hbodies⟩
  refine List.forall₂_map_right_iff.2 (hboth.imp fun body q ⟨hbody, hsegment⟩ => ?_)
  exact asks_ofQuery (rel_domain hprogram)
    (fun r hr => (hprogram.soundRegion_of_mem_domain? hr).1) hsegment hbody

/-- An `or` on both sides, and a query of which nothing is left. -/
theorem QueryDocument.requests_ask_or :
    syntaxErrors (parse "a or b\nq: c or d\nall: dir:asc\n".toList) = [] ∧
      (ofTree (parse "a or b\nq: c or d\nall: dir:asc\n".toList)).requests.map
        SearchRequest.filter = ["(a or b) (c or d)".toList, "a or b".toList] ∧
      List.Forall₂
        (fun body request => Asks request.filter
          (Expr.combine? .and ((parse "a or b\nq: c or d\nall: dir:asc\n".toList).domain?.bind
            fun r => r.pruneRegion.expr?) body.pruneRegion.expr?))
        (parse "a or b\nq: c or d\nall: dir:asc\n".toList).bodyRegions
        (ofTree (parse "a or b\nq: c or d\nall: dir:asc\n".toList)).requests :=
  have h : syntaxErrors (parse "a or b\nq: c or d\nall: dir:asc\n".toList) = [] := by
    decide +kernel
  ⟨h, by decide +kernel, QueryDocument.requests_ask _ h⟩

end CardQuery
