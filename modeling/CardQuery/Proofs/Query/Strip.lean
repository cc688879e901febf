import CardQuery.Proofs.Expr.Printing
import CardQuery.Proofs.Query.Cuts

/-!
# Stripping agrees with pruning

Stripping cuts settings out of the tokens of an expression, and pruning takes them out of its tree.
What is kept by the one is spelled as an expression that asks the same as what the other leaves.
The proof follows the shape of the expression: an operand that consists of settings takes the
keyword beside it along, so that what is left of the other operand stands alone.

Main statement: `Shape.stripsTo`.
-/

set_option autoImplicit false

namespace CardQuery

namespace Tree

/-! ## What stripping does at each node -/

theorem stripEach_eq_map (cs : List Tree) : stripEach cs = cs.map fun c => (c, c.strip) := by
  induction cs with
  | nil => simp [stripEach]
  | cons c cs ih => simp [stripEach, ih]

@[simp] theorem strip_token (t : Token) : (token t).strip = .ofTokens [t] := by
  simp [strip]

theorem strip_tag_of_isSetting {cs : List Tree} (h : (node .tag cs).isSetting = true) :
    (node .tag cs).strip.kept = [none] ∧ (node .tag cs).strip.onlySettings = true := by
  obtain ⟨given, hgiven⟩ := Option.isSome_iff_exists.1 h
  simp [strip, hgiven, Stripped.cut]

theorem strip_tag {cs : List Tree} (h : (node .tag cs).isSetting = false) :
    (node .tag cs).strip = .ofTokens (tokensOf cs) := by
  have hnone : settingOf? (node .tag cs) = none := by
    simpa [isSetting] using h
  simp [strip, hnone]

/-- A clause is cut out when it has expressions and each consists of settings. -/
theorem strip_clause (cs : List Tree) :
    (node .clause cs).strip
      = if !(cs.filter isExpression).isEmpty
          && (cs.filter isExpression).all (fun c => c.strip.onlySettings) then
          .cut (cs.flatMap fun c => c.strip.settings)
        else .concat (cs.map strip) := by
  have hinner : (cs.map fun c => (c.isExpression, c.strip)).filter Prod.fst
      = (cs.filter isExpression).map fun c => (c.isExpression, c.strip) := by
    rw [List.filter_map]
    rfl
  simp only [strip, stripEach_eq_map, List.map_map, Function.comp_def, Stripped.clause, hinner,
    List.isEmpty_map, List.all_map, Stripped.concat, List.flatMap_map]

/-- The tokens kept of a child of a binary node, when an operand is cut out or none is. -/
def keptBeside (op : Connective) (cutOut : Bool) (c : Tree) : List (Option Token) :=
  if c.tokenKind? = some (.keyword op) ∧ cutOut = true then [none] else c.strip.kept

theorem keptBeside_of_isExpression {c : Tree} (h : c.isExpression = true) (op : Connective)
    (cutOut : Bool) : keptBeside op cutOut c = c.strip.kept := by
  cases c with
  | token t => cases h
  | node k cs => simp [keptBeside]

/-- A binary node keeps what its children keep, and its keyword if no operand is cut out. -/
theorem strip_binary (op : Connective) (cs : List Tree) :
    (node (.binary op) cs).strip.kept
        = cs.flatMap (keptBeside op ((cs.filter isExpression).any fun c => c.strip.onlySettings)) ∧
      ((node (.binary op) cs).strip.onlySettings = true ↔
        ((cs.filter isExpression).map fun c => c.strip.onlySettings)[0]? = some true ∧
        ((cs.filter isExpression).map fun c => c.strip.onlySettings)[1]? = some true) := by
  have hoperands : ((cs.map fun c => (c, c.strip)).filter fun p => p.1.isExpression).map
      (fun p => p.2.onlySettings) = (cs.filter isExpression).map fun c => c.strip.onlySettings := by
    rw [List.filter_map, List.map_map]
    rfl
  have hkept : (node (.binary op) cs).strip
      = Stripped.binary (cs.map fun c => (c, c.strip)) op := by
    simp only [strip, stripEach_eq_map]
  rw [hkept, Stripped.binary, hoperands]
  constructor
  · simp only [Stripped.concat, List.flatMap_map, List.any_map]
    refine List.flatMap_congr fun c _ => ?_
    simp only [keptBeside]
    split <;> simp_all [Stripped.cut]
  · simp only [decide_eq_true_eq]

/-! ## Undoing a squeeze -/

theorem squeezeEach_eq_map (cs : List Tree) :
    squeezeEach cs = (cs.filter fun c => !c.isBlank).map squeeze := by
  induction cs with
  | nil => simp
  | cons c cs ih =>
      rw [squeezeEach_cons, ih]
      cases hc : c.isBlank <;> simp [hc]

theorem eq_token_of_squeeze {c : Tree} {t : Token} (h : c.squeeze = token t) : c = token t := by
  cases c with
  | token u => simpa using h
  | node k cs => cases k <;> simp [squeeze] at h

theorem exists_of_squeeze_eq_node {c : Tree} {k : NodeKind} {ds : List Tree}
    (hk : k = .clause ∨ ∃ op, k = .binary op) (h : c.squeeze = node k ds) :
    ∃ cs, c = node k cs ∧ squeezeEach cs = ds := by
  have hkind := kind?_squeeze c
  rw [h] at hkind
  cases c with
  | token u => cases hkind
  | node j cs =>
      obtain rfl : k = j := by simpa using hkind
      rcases hk with rfl | ⟨op, rfl⟩ <;> exact ⟨cs, rfl, by simpa using h⟩

theorem eq_of_squeeze_eq_term {c : Tree} {k : NodeKind} {ds : List Tree} (hk : k.isTerm = true)
    (h : c.squeeze = node k ds) : c = node k ds := by
  have hkind := kind?_squeeze c
  rw [h] at hkind
  cases c with
  | token u => cases hkind
  | node j cs =>
      obtain rfl : k = j := by simpa using hkind
      cases k <;> simp_all [squeeze, NodeKind.isTerm]

/-- Blanks are no expressions. -/
theorem filter_isExpression_eq (cs : List Tree) :
    cs.filter isExpression = (cs.filter fun c => !c.isBlank).filter isExpression := by
  rw [List.filter_filter]
  refine List.filter_congr fun c _ => ?_
  cases hc : c.isBlank with
  | false => simp
  | true => simp [isExpression_of_isBlank hc]

end Tree

/-! ## Expressions -/

/-- What is left of an expression: nothing, or an expression that asks what the pruned tree asks. -/
def StripsTo (lvl : Level) (t : Tree) : Prop :=
  (t.strip.onlySettings = true ∧ Cuts t.yield t.strip.kept [] ∧ t.prune = none) ∨
  (t.strip.onlySettings = false ∧ ∃ s, Shape lvl s ∧ Cuts t.yield t.strip.kept s.yield ∧
    s.lower = t.prune.bind Tree.lower)

/-- What is left at one level is left at a looser one. -/
theorem StripsTo.mono {lvl lvl' : Level} {t : Tree} (h : StripsTo lvl t)
    (hlvl : ∀ s, Shape lvl s → Shape lvl' s) : StripsTo lvl' t := by
  rcases h with h | ⟨honly, s, hs, hcuts, hlower⟩
  · exact Or.inl h
  · exact Or.inr ⟨honly, s, hlvl s hs, hcuts, hlower⟩

theorem stripsTo_term {w : List Token} {t : Tree} {e : Ending} (h : SpelledTerm w t e) :
    StripsTo .term t := by
  have hyield := h.yield_eq
  have hkeep : Plain [.term t] → t.strip = .ofTokens t.tokens → t.prune = some t →
      StripsTo .term t := by
    intro hplain hstrip hprune
    refine Or.inr ⟨by rw [hstrip]; rfl, t, .simple h, ?_, by rw [hprune]; rfl⟩
    rw [hstrip, hyield]
    exact Cuts.keep hplain
  obtain ⟨k, cs, rfl, hk⟩ := h.exists_node
  cases k with
  | tag =>
      cases hset : (Tree.node .tag cs).isSetting with
      | true =>
          obtain ⟨hkept, honly⟩ := Tree.strip_tag_of_isSetting hset
          refine Or.inl ⟨honly, ?_, by simp [Tree.prune, hset]⟩
          rw [hkept]
          exact Cuts.cut _
      | false =>
          refine hkeep ?_ (by rw [Tree.strip_tag hset, Tree.tokens_node])
            (by simp [Tree.prune, hset])
          intro tree htree _
          obtain rfl : tree = .node .tag cs := by simpa using htree
          exact hset
  | argument => exact hkeep (by simp [Plain]) (by simp [Tree.strip]) (by simp [Tree.prune])
  | literal k => exact hkeep (by simp [Plain]) (by simp [Tree.strip]) (by simp [Tree.prune])
  | _ => cases hk

/-- The parenthesis and keywords of an expression are kept. -/
theorem cuts_token {t : Token} {i : Item} (hi : Item.ofMark? t = some i)
    (hblank : i.isBlank = false) : Cuts (Tree.token t).yield (Tree.token t).strip.kept [i] := by
  have hmark := Cuts.mark hi
  rw [solid_cons hblank] at hmark
  rw [Tree.strip_token]
  exact hmark

theorem strip_clause_keep {cs : List Tree}
    (h : (cs.filter Tree.isExpression).isEmpty = true ∨
      ∃ c ∈ cs.filter Tree.isExpression, c.strip.onlySettings = false) :
    (Tree.node .clause cs).strip.kept = cs.flatMap (fun c => c.strip.kept) ∧
      (Tree.node .clause cs).strip.onlySettings = false := by
  rw [Tree.strip_clause, if_neg]
  · simp [Stripped.concat, List.flatMap_map]
  · rw [Bool.and_eq_true, not_and]
    intro hne hall
    rcases h with hempty | ⟨c, hc, honly⟩
    · simp [hempty] at hne
    · rw [List.all_eq_true] at hall
      rw [hall c hc] at honly
      cases honly

theorem stripsTo_empty {o c : Token} (ho : o.kind = .leftParen) (hc : c.kind = .rightParen)
    {t : Tree} (ht : t.squeeze = .node .clause [.token o, .token c]) : StripsTo .term t := by
  obtain ⟨cs, rfl, hcs⟩ := Tree.exists_of_squeeze_eq_node (Or.inl rfl) ht
  rw [Tree.squeezeEach_eq_map, List.map_eq_cons_iff] at hcs
  obtain ⟨a, rest, hfilter, ha, hrest⟩ := hcs
  obtain ⟨b, rfl, hb⟩ := List.map_eq_singleton_iff.1 hrest
  obtain rfl := Tree.eq_token_of_squeeze ha
  obtain rfl := Tree.eq_token_of_squeeze hb
  have hexpr : cs.filter Tree.isExpression = [] := by
    rw [Tree.filter_isExpression_eq, hfilter]
    simp
  have hempty : (cs.filter Tree.isExpression).isEmpty = true := by simp [hexpr]
  obtain ⟨hkept, honly⟩ := strip_clause_keep (Or.inl hempty)
  have hmarkOpen := Item.ofMark?_leftParen ho
  have hmarkClose := Item.ofMark?_rightParen hc
  have hcuts : CutsEach (fun c => c.strip.kept) cs ([.opening o] ++ ([.closing c] ++ [])) := by
    refine .of_filter (fun t _ => by simp [Stripped.ofTokens]) ?_
    rw [hfilter]
    exact .cons (cuts_token hmarkOpen rfl) (.cons (cuts_token hmarkClose rfl) .nil)
  refine Or.inr ⟨honly, .node .clause [.token o, .token c], .empty ho hc, ?_, ?_⟩
  · rw [hkept, Tree.yield_clause]
    simpa [hmarkOpen, hmarkClose] using hcuts.cuts
  · rw [Shape.lower_empty, Tree.prune_clause_eq_none (by simp [hexpr])]
    rfl

theorem stripsTo_clause {o c : Token} {s : Tree} (ho : o.kind = .leftParen)
    (hc : c.kind = .rightParen) (hs : Shape (.row .or) s)
    (ih : ∀ t : Tree, t.squeeze = s → StripsTo (.row .or) t) {t : Tree}
    (ht : t.squeeze = .node .clause [.token o, s, .token c]) : StripsTo .term t := by
  obtain ⟨cs, rfl, hcs⟩ := Tree.exists_of_squeeze_eq_node (Or.inl rfl) ht
  rw [Tree.squeezeEach_eq_map, List.map_eq_cons_iff] at hcs
  obtain ⟨a, rest, hfilter, ha, hrest⟩ := hcs
  obtain ⟨u, rest', rfl, hu, hrest'⟩ := List.map_eq_cons_iff.1 hrest
  obtain ⟨b, rfl, hb⟩ := List.map_eq_singleton_iff.1 hrest'
  obtain rfl := Tree.eq_token_of_squeeze ha
  obtain rfl := Tree.eq_token_of_squeeze hb
  have huexpr : u.isExpression = true := by
    rw [← Tree.isExpression_squeeze, hu, hs.isExpression]
  have hexpr : cs.filter Tree.isExpression = [u] := by
    rw [Tree.filter_isExpression_eq, hfilter]
    simp [huexpr]
  have hmarkOpen := Item.ofMark?_leftParen ho
  have hmarkClose := Item.ofMark?_rightParen hc
  rcases ih u hu with ⟨honly, -, hprune⟩ | ⟨honly, s', hs', hcuts, hlower⟩
  · -- a clause with nothing but settings goes with its parentheses
    have hcut : (Tree.node .clause cs).strip = .cut (cs.flatMap fun c => c.strip.settings) := by
      rw [Tree.strip_clause, hexpr]
      simp [honly]
    refine Or.inl ⟨by rw [hcut]; rfl, ?_, ?_⟩
    · rw [hcut]
      exact Cuts.cut _
    · exact Tree.prune_clause_eq_none (by simpa [hexpr] using hprune)
  · have hmem : u ∈ cs.filter Tree.isExpression := by simp [hexpr]
    obtain ⟨hkept, hclause⟩ := strip_clause_keep (Or.inr ⟨u, hmem, honly⟩)
    have heach : CutsEach (fun c => c.strip.kept) cs
        ([.opening o] ++ (s'.yield ++ ([.closing c] ++ []))) := by
      refine .of_filter (fun t _ => by simp [Stripped.ofTokens]) ?_
      rw [hfilter]
      exact .cons (cuts_token hmarkOpen rfl) (.cons hcuts (.cons (cuts_token hmarkClose rfl) .nil))
    refine Or.inr ⟨hclause, .node .clause [.token o, s', .token c], .clause ho hc hs', ?_, ?_⟩
    · rw [hkept, Tree.yield_clause]
      simpa [hmarkOpen, hmarkClose] using heach.cuts
    · rw [Shape.lower_clause hs', hlower, Tree.bind_lower_prune_clause hexpr]

/-! ## Binary nodes -/

/-- Nothing is lost when an operand is looked up among the children of its node. -/
theorem exists_operands {op : Connective} {k : Option Token} {sl sr t : Tree} {lvl lvl' : Level}
    (hsl : Shape lvl sl) (hsr : Shape lvl' sr)
    (ht : t.squeeze = .node (.binary op) (sl :: (k.toList.map .token ++ [sr]))) :
    ∃ cs l r, t = .node (.binary op) cs ∧ l.squeeze = sl ∧ r.squeeze = sr ∧
      (cs.filter fun c => !c.isBlank) = l :: (k.toList.map .token ++ [r]) ∧
      cs.filter Tree.isExpression = [l, r] := by
  obtain ⟨cs, rfl, hcs⟩ := Tree.exists_of_squeeze_eq_node (Or.inr ⟨op, rfl⟩) ht
  rw [Tree.squeezeEach_eq_map, List.map_eq_cons_iff] at hcs
  obtain ⟨l, rest, hfilter, hl, hrest⟩ := hcs
  obtain ⟨mid, last, rfl, hmid, hlast⟩ := List.map_eq_append_iff.1 hrest
  obtain ⟨r, rfl, hr⟩ := List.map_eq_singleton_iff.1 hlast
  have htokens : mid = k.toList.map .token := by
    cases k with
    | none => simpa using hmid
    | some t =>
        obtain ⟨x, rfl, hx⟩ := List.map_eq_singleton_iff.1 hmid
        rw [Tree.eq_token_of_squeeze hx]
        rfl
  subst htokens
  have hlexpr : l.isExpression = true := by
    rw [← Tree.isExpression_squeeze, hl, hsl.isExpression]
  have hrexpr : r.isExpression = true := by
    rw [← Tree.isExpression_squeeze, hr, hsr.isExpression]
  refine ⟨cs, l, r, rfl, hl, hr, hfilter, ?_⟩
  rw [Tree.filter_isExpression_eq, hfilter]
  cases k <;> simp [hlexpr, hrexpr]

/-- Beside an operand that is cut out the keyword is cut out as well. -/
theorem cutsEach_keyword_dropped {op : Connective} {k : Option Token}
    (hk : ∀ x ∈ k, x.kind = .keyword op) :
    CutsEach (Tree.keptBeside op true) (k.toList.map .token) [] := by
  cases k with
  | none => exact .nil
  | some x =>
      have hcut : Tree.keptBeside op true (.token x) = [none] := by
        simp [Tree.keptBeside, hk x rfl]
      simpa using CutsEach.cons (hcut ▸ Cuts.cut (Tree.token x).yield) .nil

/-- Between operands that are kept the keyword is kept. -/
theorem cutsEach_keyword_kept {op : Connective} {k : Option Token}
    (hk : ∀ x ∈ k, x.kind = .keyword op) :
    CutsEach (Tree.keptBeside op false) (k.toList.map .token)
      (Tree.yieldEach (k.toList.map .token)) := by
  cases k with
  | none => simpa using CutsEach.nil
  | some x =>
      have hmark := Item.ofMark?_keyword (hk x rfl)
      have hkeyword : Cuts (Tree.token x).yield (Tree.keptBeside op false (.token x))
          [.keyword op x] := by
        simpa [Tree.keptBeside] using cuts_token hmark rfl
      simpa [hmark] using CutsEach.cons hkeyword .nil

/-- What is kept of a binary node is what is kept of its operands and of its keyword. -/
theorem cutsEach_binary {op : Connective} {out : Bool} {cs ks : List Tree} {l r : Tree}
    (hl : l.isExpression = true) (hr : r.isExpression = true)
    (hcs : (cs.filter fun c => !c.isBlank) = l :: (ks ++ [r])) {jl jk jr : List Item}
    (hjl : Cuts l.yield l.strip.kept jl) (hjk : CutsEach (Tree.keptBeside op out) ks jk)
    (hjr : Cuts r.yield r.strip.kept jr) :
    CutsEach (Tree.keptBeside op out) cs (jl ++ (jk ++ jr)) := by
  rw [← Tree.keptBeside_of_isExpression hl op out] at hjl
  rw [← Tree.keptBeside_of_isExpression hr op out] at hjr
  have hlast : CutsEach (Tree.keptBeside op out) [r] jr := by
    simpa using CutsEach.cons hjr .nil
  apply CutsEach.of_filter
  · intro x hx
    have hblank : x.kind = .blank := by simpa [Token.isBlank] using hx
    simp [Tree.keptBeside, hblank, Stripped.ofTokens]
  · rw [hcs]
    exact .cons hjl (hjk.append hlast)

theorem stripsTo_join {op : Connective} {k : Option Token} {sl sr : Tree}
    (hsl : Shape (.row op) sl) (hk : Joins op k) (hsr : Shape (.right op) sr)
    (ihl : ∀ t : Tree, t.squeeze = sl → StripsTo (.row op) t)
    (ihr : ∀ t : Tree, t.squeeze = sr → StripsTo (.right op) t) {t : Tree}
    (ht : t.squeeze = .node (.binary op) (sl :: (k.toList.map .token ++ [sr]))) :
    StripsTo (.row op) t := by
  obtain ⟨cs, l, r, rfl, hl, hr, hfilter, hexpr⟩ := exists_operands hsl hsr ht
  obtain ⟨hkept, honly⟩ := Tree.strip_binary op cs
  have hlower := @Tree.bind_lower_prune_binary op cs l r hexpr
  have hlexpr : l.isExpression = true := by
    rw [← Tree.isExpression_squeeze, hl, hsl.isExpression]
  have hrexpr : r.isExpression = true := by
    rw [← Tree.isExpression_squeeze, hr, hsr.isExpression]
  rw [hexpr] at hkept honly
  simp only [List.any_cons, List.any_nil, Bool.or_false] at hkept
  simp only [List.map_cons, List.map_nil, List.getElem?_cons_zero, List.getElem?_cons_succ,
    Option.some.injEq] at honly
  generalize hout : (l.strip.onlySettings || r.strip.onlySettings) = out at hkept
  have hcuts : ∀ {jl jk jr : List Item}, Cuts l.yield l.strip.kept jl →
      CutsEach (Tree.keptBeside op out) (k.toList.map .token) jk → Cuts r.yield r.strip.kept jr →
      Cuts (Tree.node (.binary op) cs).yield (Tree.node (.binary op) cs).strip.kept
        (jl ++ (jk ++ jr)) := by
    intro jl jk jr hjl hjk hjr
    rw [Tree.yield_binary, hkept]
    exact (cutsEach_binary hlexpr hrexpr hfilter hjl hjk hjr).cuts
  rcases ihl l hl with ⟨hlonly, hlcuts, hlprune⟩ | ⟨hlonly, l', hl', hlcuts, hllower⟩
  · obtain rfl : true = out := by rw [← hout, hlonly, Bool.true_or]
    have hdrop := cutsEach_keyword_dropped hk.1
    rcases ihr r hr with ⟨hronly, hrcuts, hrprune⟩ | ⟨hronly, r', hr', hrcuts, hrlower⟩
    · -- nothing is left of either operand
      exact Or.inl ⟨honly.2 ⟨hlonly, hronly⟩, hcuts hlcuts hdrop hrcuts,
        Tree.prune_binary_eq_none hexpr hlprune hrprune⟩
    · -- the right operand is left alone
      refine Or.inr ⟨by simp [← Bool.not_eq_true, honly, hronly], r', hr'.of_right,
        hcuts hlcuts hdrop hrcuts, ?_⟩
      rw [hlower, hlprune, hrlower]
      rfl
  · rcases ihr r hr with ⟨hronly, hrcuts, hrprune⟩ | ⟨hronly, r', hr', hrcuts, hrlower⟩
    · -- the left operand is left alone
      obtain rfl : true = out := by rw [← hout, hronly, Bool.or_true]
      have hdrop := hcuts hlcuts (cutsEach_keyword_dropped hk.1) hrcuts
      refine Or.inr ⟨by simp [← Bool.not_eq_true, honly, hlonly], l', hl', ?_, ?_⟩
      · simpa using hdrop
      · rw [hlower, hrprune, hllower]
        cases l.prune.bind Tree.lower <;> rfl
    · -- both operands are left, with the keyword between them
      obtain rfl : false = out := by rw [← hout, hlonly, hronly, Bool.or_false]
      have hkeep := hcuts hlcuts (cutsEach_keyword_kept hk.1) hrcuts
      refine Or.inr ⟨by simp [← Bool.not_eq_true, honly, hlonly], _, .join hl' hk hr', ?_, ?_⟩
      · simpa using hkeep
      · rw [Shape.lower_join hl' hr', hlower, hllower, hrlower]

/-- **What stripping keeps of an expression asks what pruning leaves of it.** -/
theorem Shape.stripsTo {lvl : Level} {s : Tree} (h : Shape lvl s) {t : Tree} (ht : t.squeeze = s) :
    StripsTo lvl t := by
  induction h generalizing t with
  | simple h =>
      obtain ⟨k, cs, rfl, hk⟩ := h.exists_node
      rw [Tree.eq_of_squeeze_eq_term hk ht]
      exact stripsTo_term h
  | empty ho hc => exact stripsTo_empty ho hc ht
  | clause ho hc hs ih => exact stripsTo_clause ho hc hs (fun u hu => ih hu) ht
  | join hl hk hr ihl ihr =>
      exact stripsTo_join hl hk hr (fun u hu => ihl hu) (fun u hu => ihr hu) ht
  | ofTerm h ih => exact (ih ht).mono fun s hs => .ofTerm hs
  | ofAnd h ih => exact (ih ht).mono fun s hs => .ofAnd hs

end CardQuery
