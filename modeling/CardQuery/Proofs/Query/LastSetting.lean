import CardQuery.Proofs.Query.Extraction
import CardQuery.Proofs.Query.Strip
import CardQuery.Query.Request

/-!
# The settings of a request

A setting of a query is given by the last tag for it in the query's body, and if there is none by
the last one in the domain. `Configures` says of a tag that it gives a setting, by its parts and
not by how they are looked up, and `LastSetting` says which value is the last in a region.

Stripping a region gathers its settings expression by expression. Since an expression stands only
in regions, clauses and binary nodes, this meets every tag of the region once, in the order of the
text, whatever is wrong with it (`settings_stripRegion`).

Main statement: `QueryDocument.last_setting_wins`.
-/

set_option autoImplicit false

namespace CardQuery

open CardQuery.Tree (AllOf)

/-! ## The tags that give a setting -/

/-- The spellings of a setting, in small letters. -/
def SettingKey.spellings : SettingKey → List Text
  | .order => ["order".toList]
  | .dir => ["dir".toList, "direction".toList]
  | .unique => ["unique".toList]

/-- Whether a node is a tag that gives a setting a value: it has no sign, its argument spells the
setting in any letter case, its comparison is a colon or an equals sign, and its value says this
and is not empty. -/
structure Tree.Configures (tag : Tree) (key : SettingKey) (value : Text) : Prop where
  isTag : tag.kind? = some .tag
  unsigned : tag.sign? = none
  spelled : ∃ a ∈ tag.argument?, a.text.asciiLower ∈ key.spellings
  assigned : ∃ op ∈ tag.operator?, op.comparisonKind? = some (.comparison .colon) ∨
    op.comparisonKind? = some (.comparison .equal)
  valued : ∃ v ∈ tag.value?, v.unquoted = value ∧ value ≠ []

/-- Whether the last node of a region that gives a setting a value gives it this one; `none` says
that no node does. -/
def Tree.LastSetting (region : Tree) (key : SettingKey) : Option Text → Prop
  | none => ∀ f ∈ region.nodes, ∀ value, ¬ f.tree.Configures key value
  | some value => ∃ before f after, region.nodes = before ++ f :: after ∧
      f.tree.Configures key value ∧ ∀ g ∈ after, ∀ other, ¬ g.tree.Configures key other

/-! ## What a tag gives -/

theorem mem_spellings_of_mem_table :
    ∀ g ∈ AliasGroup.table, ∀ key ∈ g.kind.setting?, g.aliases = key.spellings := by
  decide +kernel

theorem setting?_of_mem_spellings : ∀ key, ∀ s ∈ SettingKey.spellings key,
    s.asciiLower = s ∧ setting? s = some key := by
  intro key
  cases key <;> decide +kernel

/-- A text spells a setting when its small letters do. -/
theorem setting?_eq_some_iff {name : Text} {key : SettingKey} :
    setting? name = some key ↔ name.asciiLower ∈ key.spellings := by
  constructor
  · intro h
    obtain ⟨kind, hkind, hset⟩ := Option.bind_eq_some_iff.1 h
    obtain ⟨g, hg, rfl⟩ := Option.map_eq_some_iff.1 hkind
    rw [← mem_spellings_of_mem_table g (List.mem_of_find?_eq_some hg) key hset]
    simpa using List.find?_some hg
  · intro h
    obtain ⟨hsmall, hset⟩ := setting?_of_mem_spellings key _ h
    rw [← hset, setting?, argumentKind?, aliasGroup?_congr hsmall.symm]
    rfl

theorem settingOf?_eq_some_iff {t : Tree} {key : SettingKey} {value : Text} :
    settingOf? t = some (key, value) ↔ t.sign? = none ∧
      (∃ a ∈ t.argument?, setting? a.text = some key) ∧
      (∃ op ∈ t.operator?, op.comparisonKind? = some (.comparison .colon) ∨
        op.comparisonKind? = some (.comparison .equal)) ∧
      ∃ v ∈ t.value?, v.unquoted = value ∧ value ≠ [] := by
  unfold settingOf?
  rcases t.sign? with _ | s <;> rcases t.argument? with _ | a <;>
    rcases t.operator? with _ | op <;> rcases t.value? with _ | v <;> try simp
  rcases setting? a.text with _ | k <;> rcases op.comparisonKind? with _ | c <;> try simp
  constructor
  · rintro ⟨⟨hkind, hne⟩, rfl, rfl⟩
    exact ⟨rfl, hkind, rfl, hne⟩
  · rintro ⟨rfl, hkind, rfl, hne⟩
    exact ⟨⟨hkind, hne⟩, rfl, rfl⟩

/-- The setting that a node gives, if it is a tag that gives one. -/
def Tree.given? (t : Tree) : Option (SettingKey × Text) :=
  if t.isKind .tag then settingOf? t else none

theorem Tree.given?_eq_some_iff {t : Tree} {key : SettingKey} {value : Text} :
    t.given? = some (key, value) ↔ t.Configures key value := by
  unfold given?
  constructor
  · intro h
    split at h
    · next hkind =>
        obtain ⟨hsign, ⟨a, ha, hspell⟩, hop, hvalue⟩ := settingOf?_eq_some_iff.1 h
        exact ⟨by simpa [isKind] using hkind, hsign, ⟨a, ha, setting?_eq_some_iff.1 hspell⟩, hop,
          hvalue⟩
    · cases h
  · intro h
    obtain ⟨a, ha, hspell⟩ := h.spelled
    rw [if_pos (by simpa [isKind] using h.isTag), settingOf?_eq_some_iff]
    exact ⟨h.unsigned, ⟨a, ha, setting?_eq_some_iff.2 hspell⟩, h.assigned, h.valued⟩

/-- The value that a setting gives to a key, if it is for that key. -/
def valueFor (key : SettingKey) (given : SettingKey × Text) : Option Text :=
  if given.1 = key then some given.2 else none

theorem Tree.bind_given?_eq_some_iff {t : Tree} {key : SettingKey} {value : Text} :
    t.given?.bind (valueFor key) = some value ↔ t.Configures key value := by
  rw [← given?_eq_some_iff, Option.bind_eq_some_iff]
  constructor
  · rintro ⟨⟨k, v⟩, hgiven, hvalue⟩
    simp only [valueFor] at hvalue
    split at hvalue <;> cases hvalue
    next hkey => rw [hgiven, ← hkey]
  · intro hgiven
    exact ⟨_, hgiven, by simp [valueFor]⟩

theorem Tree.bind_given?_eq_none_iff {t : Tree} {key : SettingKey} :
    t.given?.bind (valueFor key) = none ↔ ∀ value, ¬ t.Configures key value := by
  rw [Option.eq_none_iff_forall_ne_some]
  exact forall_congr' fun value => not_congr bind_given?_eq_some_iff

/-- The last value is the last of those that the nodes of the region give. -/
theorem Tree.lastSetting_iff {region : Tree} {key : SettingKey} {value : Option Text} :
    region.LastSetting key value ↔
      (region.nodes.filterMap fun f => f.tree.given?.bind (valueFor key)).getLast? = value := by
  rw [List.getLast?_filterMap]
  cases value with
  | none =>
      rw [List.findSome?_eq_none_iff]
      simp only [LastSetting, bind_given?_eq_none_iff, List.mem_reverse]
  | some value =>
      -- the last of a list is the first of it backwards
      rw [List.findSome?_eq_some_iff]
      simp only [LastSetting, bind_given?_eq_some_iff, bind_given?_eq_none_iff]
      constructor
      · rintro ⟨before, f, after, hrow, hf, hafter⟩
        refine ⟨after.reverse, f, before.reverse, by simp [hrow], hf, fun g hg => ?_⟩
        exact hafter g (List.mem_reverse.1 hg)
      · rintro ⟨after, f, before, hrow, hf, hafter⟩
        refine ⟨before.reverse, f, after.reverse, ?_, hf, fun g hg => ?_⟩
        · simpa using congrArg List.reverse hrow
        · exact hafter g (List.mem_reverse.1 hg)

theorem QuerySettings.get_ofList (given : List (SettingKey × Text)) (key : SettingKey) :
    (ofList given).get key = (given.filterMap (valueFor key)).getLast? := by
  induction given using List.reverseRecOn with
  | nil => cases key <;> rfl
  | append_singleton given g ih =>
      have hstep : ofList (given ++ [g]) = (ofList given).set g.1 g.2 := by
        simp [ofList, List.foldl_append]
      rw [hstep, get_set, ih, List.filterMap_append, List.getLast?_append]
      by_cases hkey : g.1 = key <;> simp [valueFor, hkey]

namespace Tree

theorem settings_ofTokens (ts : List Token) : (Stripped.ofTokens ts).settings = [] := rfl

theorem settings_strip_clause (cs : List Tree) :
    (node .clause cs).strip.settings = cs.flatMap fun c => c.strip.settings := by
  rw [strip_clause]
  split
  · rfl
  · simp [Stripped.concat, List.flatMap_map]

theorem settings_strip_binary (op : Connective) (cs : List Tree) :
    (node (.binary op) cs).strip.settings = cs.flatMap fun c => c.strip.settings := by
  simp only [strip, stripEach_eq_map, Stripped.binary, Stripped.concat, List.flatMap_map]
  refine List.flatMap_congr fun c _ => ?_
  split
  · next hcut =>
      cases c with
      | token t => simp [Stripped.cut, settings_ofTokens]
      | node k ds => cases hcut.1
  · rfl

/-- The parts of tags have no settings, nor has anything that is no expression. -/
theorem settings_eq_nil {c : Tree}
    (h : c.kind?.all (fun k => k.isTagPart || !k.isExpression) = true) :
    c.strip.settings = [] := by
  cases c with
  | token t => simp [settings_ofTokens]
  | node k cs => cases k <;> first | (simp [strip, settings_ofTokens]; done) | cases h

theorem settings_of_not_isExpression {c : Tree} (h : c.isExpression = false) :
    c.strip.settings = [] :=
  settings_eq_nil (by cases c <;> simp_all [isExpression])

/-- The settings of several trees, in order. -/
def settingsOf (cs : List Tree) : List (SettingKey × Text) :=
  cs.flatMap fun c => c.strip.settings

end Tree

/-- What holds of all kinds that a node admits holds of the kinds of its children. -/
theorem NodeKind.Nests.all_kind {k : NodeKind} {cs : List Tree} (h : k.Nests cs)
    {p : NodeKind → Bool} (hp : ∀ j, k.admits j = true → p j = true) :
    ∀ c ∈ cs, c.kind?.all p = true := by
  intro c hc
  have hadmits := h c hc
  cases hkind : c.kind? with
  | none => rfl
  | some j =>
      rw [hkind] at hadmits
      exact hp j hadmits

/-- Whether a node stands inside a region: in an expression or an error, or as a part of a tag. -/
def NodeKind.isInner (k : NodeKind) : Bool :=
  k.isOperand || k.isTagPart

theorem NodeKind.isInner_of_admits {k j : NodeKind} (hk : k.isInner = true)
    (h : k.admits j = true) : j.isInner = true := by
  cases k <;> simp_all [isInner, admits, isOperand, isTagPart, isExpression]

namespace Tree

/-- A node has the setting that it gives itself and then those of its children. -/
theorem settings_strip {k : NodeKind} {cs : List Tree} (hk : k.isInner = true) (h : k.Nests cs) :
    (node k cs).strip.settings = (node k cs).given?.toList ++ settingsOf cs := by
  have hparts : (∀ j, k.admits j = true → j.isTagPart = true) → settingsOf cs = [] := by
    intro hadmits
    rw [settingsOf, List.flatMap_eq_nil_iff]
    exact fun c hc => settings_eq_nil (h.all_kind (fun j hj => by simp [hadmits j hj]) c hc)
  cases k with
  -- only clauses and binary nodes have expressions for children, and only tags give settings
  | clause => rw [settings_strip_clause]; rfl
  | binary op => rw [settings_strip_binary]; rfl
  | tag =>
      have hgiven : (node .tag cs).given? = settingOf? (node .tag cs) := rfl
      rw [hparts fun j hj => hj, List.append_nil, strip, hgiven]
      cases settingOf? (node .tag cs) <;> rfl
  | program | domain | query | queryName | queryBody => cases hk
  | _ =>
      rw [hparts fun j hj => by cases hj]
      simp [strip, given?, isKind, settings_ofTokens]

mutual

theorem filterMap_focusesFrom {t : Tree} (ht : t.kind?.all NodeKind.isInner = true)
    (h : t.All NodeKind.Nests) (above : List Step) (start : Nat) :
    (focusesFrom above start t).filterMap (fun f => f.tree.given?) = t.strip.settings := by
  cases t with
  | token t => simp [focusesFrom, given?, isKind, settings_ofTokens]
  | node k cs =>
      rw [all_node] at h
      have hcs : ∀ c ∈ cs, c.kind?.all NodeKind.isInner = true :=
        h.1.all_kind fun j hj => NodeKind.isInner_of_admits ht hj
      -- a node is listed before what stands in it
      have hrest := filterMap_focusesOf hcs h.2 above k start [] start
      rw [focusesFrom, settings_strip ht h.1, ← hrest, List.filterMap_cons]
      cases (node k cs).given? <;> rfl

theorem filterMap_focusesOf {cs : List Tree} (hcs : ∀ c ∈ cs, c.kind?.all NodeKind.isInner = true)
    (h : AllOf NodeKind.Nests cs) (above : List Step) (k : NodeKind) (nodeStart : Nat)
    (before : List Tree) (start : Nat) :
    (focusesOf above k nodeStart before start cs).filterMap (fun f => f.tree.given?)
      = settingsOf cs := by
  cases cs with
  | nil => simp [focusesOf, settingsOf]
  | cons c cs =>
      rw [allOf_cons] at h
      rw [List.forall_mem_cons] at hcs
      rw [focusesOf, List.filterMap_append, filterMap_focusesFrom hcs.1 h.1,
        filterMap_focusesOf hcs.2 h.2]
      rfl

end

/-- **Stripping a region gathers the settings of its tags, each once and in order.** -/
theorem settings_stripRegion {k : NodeKind} (hk : k.isRegion = true) (ts : List Token) :
    (node k (regionTrees ts)).stripRegion.settings
      = (node k (regionTrees ts)).nodes.filterMap fun f => f.tree.given? := by
  obtain ⟨hoperands, hall⟩ := nests_regionTrees ts
  have hinner : ∀ c ∈ regionTrees ts, c.kind?.all NodeKind.isInner = true :=
    hoperands.all_kind fun j hj => NodeKind.isInner_of_admits (k := .clause) rfl hj
  have hroot : (node k (regionTrees ts)).given? = none := by
    cases k <;> first | rfl | cases hk
  have hstrip : (node k (regionTrees ts)).stripRegion.settings = settingsOf (regionTrees ts) := by
    simp only [stripRegion, Stripped.concat, List.flatMap_map, children]
    refine List.flatMap_congr fun c _ => ?_
    split
    · rfl
    · next hexpr => rw [settings_of_not_isExpression (by simpa using hexpr), settings_ofTokens]
  -- tokens give nothing, so the places of tokens can be listed as well
  have hnodes : (node k (regionTrees ts)).nodes.filterMap (fun f => f.tree.given?)
      = (node k (regionTrees ts)).focuses.filterMap fun f => f.tree.given? := by
    rw [nodes, List.filterMap_filter]
    refine List.filterMap_congr fun f _ => ?_
    rcases f with ⟨t | ⟨j, cs⟩, start, above⟩ <;> rfl
  rw [hstrip, hnodes, focuses, focusesFrom, List.filterMap_cons_none (by exact hroot),
    filterMap_focusesOf hinner hall]

theorem settingsOf_filter (cs : List Tree) :
    settingsOf (cs.filter isExpression) = settingsOf cs := by
  induction cs with
  | nil => rfl
  | cons c cs ih =>
      have hcons : settingsOf (c :: cs) = c.strip.settings ++ settingsOf cs := rfl
      cases hc : c.isExpression with
      | true => rw [List.filter_cons_of_pos hc, hcons, ← ih]; rfl
      | false =>
          rw [List.filter_cons_of_neg (by simp [hc]), hcons, settings_of_not_isExpression hc, ih,
            List.nil_append]

/-- A binary node with two expressions at most has the settings of its operands. -/
theorem settings_strip_operands {op : Connective} {cs : List Tree}
    (h : (cs.filter isExpression).length ≤ 2) :
    (node (.binary op) cs).strip.settings = settingsOf
      ((node (.binary op) cs).left?.toList ++ (node (.binary op) cs).right?.toList) := by
  have hall : (node (.binary op) cs).strip.settings = settingsOf (cs.filter isExpression) := by
    rw [settings_strip_binary, settingsOf_filter]
    rfl
  rw [hall, left?, right?, expressions, children]
  generalize cs.filter isExpression = operands at h ⊢
  rcases operands with _ | ⟨a, _ | ⟨b, _ | ⟨c, rest⟩⟩⟩
  · rfl
  · rfl
  · rfl
  · simp at h

/-- **Two operands are enough.** In the tree of any text a binary node has just the settings of its
left operand and then those of its right one. -/
theorem all_settings_strip_operands (t : Text) :
    (parse t).All fun k cs => ∀ op, k = .binary op → (node k cs).strip.settings
      = settingsOf ((node k cs).left?.toList ++ (node k cs).right?.toList) := by
  refine (orderlyProgram_parse t).all.imp fun k cs horderly op hk => ?_
  subst hk
  exact settings_strip_operands
    (Nat.le_trans (length_expressions_le cs) (horderly.operands op rfl))

end Tree

/-! ## Requests -/

/-- Whether a tree is one of the regions that tokens are joined to. -/
def Tree.IsRegion (region : Tree) : Prop :=
  ∃ k ts, k.isRegion = true ∧ region = .node k (regionTrees ts)

/-- The settings of a segment are the last ones of its region. -/
theorem IsSegment.lastSetting {region : Tree} {s : Segment} (h : IsSegment region s)
    (hregion : region.IsRegion) (key : SettingKey) :
    region.LastSetting key (s.settings.get key) := by
  obtain ⟨start, above, rfl⟩ := h
  obtain ⟨k, ts, hk, rfl⟩ := hregion
  rw [Tree.lastSetting_iff, Segment.ofRegion, QuerySettings.get_ofList,
    Tree.settings_stripRegion hk, List.filterMap_filterMap]

theorem isRegion_of_mem_bodyRegions {t : Text} {region : Tree}
    (h : region ∈ (parse t).bodyRegions) : region.IsRegion := by
  rcases parse_cases t with ⟨hparse, -⟩ | ⟨run, sections, -, hne, -, -, hparse⟩
  · rw [hparse] at h
    exact ⟨_, _, rfl, eq_of_mem_bodyRegions h⟩
  · rw [hparse, bodyRegions_of_sections hne] at h
    obtain ⟨s, -, rfl⟩ := List.mem_map.1 h
    exact ⟨_, _, rfl, rfl⟩

theorem isRegion_of_mem_domain? {t : Text} {region : Tree}
    (h : region ∈ (parse t).domain?) : region.IsRegion := by
  rcases parse_cases t with ⟨hparse, -⟩ | ⟨run, sections, -, -, -, -, hparse⟩
  · rw [hparse, domain?_regionTrees] at h
    cases h
  · rw [hparse] at h
    exact ⟨_, _, rfl, (eq_of_mem_domain? h).2⟩

theorem rel_imp {α β : Type} {R S : α → β → Prop} {a : Option α} {b : Option β}
    (h : Option.Rel R a b) (hS : ∀ x ∈ a, ∀ y, R x y → S x y) : Option.Rel S a b := by
  cases h with
  | none => exact .none
  | some h => exact .some (hS _ rfl _ h)

/-- What a setting is for a query: the last value in its own body, or else the last one in the
domain, or else nothing. -/
inductive InForce (domain : Option Tree) (body : Tree) (key : SettingKey) : Option Text → Prop
  | own {value : Text} (h : body.LastSetting key (some value)) :
      InForce domain body key (some value)
  | shared {region : Tree} {value : Option Text} (hbody : body.LastSetting key none)
      (hregion : region ∈ domain) (h : region.LastSetting key value) :
      InForce domain body key value
  | unset (hbody : body.LastSetting key none) (hdomain : domain = none) :
      InForce domain body key none

theorem inForce_ofQuery {domain : Option Tree} {shared : Option Segment} {body : Tree} {q : Query}
    {key : SettingKey} (hbody : body.LastSetting key (q.body.settings.get key))
    (hdomain : Option.Rel (fun region s => region.LastSetting key (s.settings.get key)) domain
      shared) :
    InForce domain body key ((SearchRequest.ofQuery q shared).settings.get key) := by
  have hsettings : (SearchRequest.ofQuery q shared).settings.get key
      = (q.body.settings.get key).or (shared.bind fun s => s.settings.get key) := by
    cases shared with
    | none => simp [SearchRequest.ofQuery]
    | some s => exact QuerySettings.get_inherit _ _ _
  rw [hsettings]
  cases hown : q.body.settings.get key with
  | some value =>
      rw [hown] at hbody
      exact .own hbody
  | none =>
      rw [hown] at hbody
      cases hdomain with
      | none => exact .unset hbody rfl
      | some h => exact .shared hbody rfl h

namespace QueryDocument

/-- **The last setting wins, then the domain.** Whatever is wrong with a text, each request has for
each setting the value of the last tag for it in the body of its own query, or else in the domain.
The domain and each query have settings of their own, which are the last in their own regions. To
gather them the left and the right operand of a binary node are enough: there is no other one. -/
theorem last_setting_wins (t : Text) :
    List.Forall₂ (fun body request => ∀ key : SettingKey,
        InForce (parse t).domain? body key (request.settings.get key))
      (parse t).bodyRegions (ofTree (parse t)).requests ∧
    List.Forall₂ (fun body q => ∀ key : SettingKey,
        body.LastSetting key (q.body.settings.get key))
      (parse t).bodyRegions (ofTree (parse t)).queries ∧
    Option.Rel (fun region s => ∀ key : SettingKey, region.LastSetting key (s.settings.get key))
      (parse t).domain? (ofTree (parse t)).domain ∧
    (parse t).All fun k cs => ∀ op, k = .binary op → (Tree.node k cs).strip.settings
      = Tree.settingsOf ((Tree.node k cs).left?.toList ++ (Tree.node k cs).right?.toList) := by
  have hdocument := isDocument_parse t
  have hregions : ∀ region ∈ (parse t).bodyRegions, region.IsRegion :=
    fun region hregion => isRegion_of_mem_bodyRegions hregion
  have hbodies := (List.forall₂_and_left _ _).2 ⟨hregions,
    List.forall₂_map_right_iff.1 (forall₂_bodies_of_isDocument hdocument)⟩
  have hqueries := hbodies.imp fun body q ⟨hregion, hsegment⟩ => hsegment.lastSetting hregion
  have hdomain := rel_imp (rel_domain_of_isDocument hdocument) fun region hregion s hsegment =>
    hsegment.lastSetting (isRegion_of_mem_domain? hregion)
  refine ⟨List.forall₂_map_right_iff.2 (hqueries.imp fun body q hbody key => ?_), hqueries, hdomain,
    Tree.all_settings_strip_operands t⟩
  exact inForce_ofQuery (hbody key) (rel_imp hdomain fun region _ s hlast => hlast key)

/-- A query with two tags for a setting, the last of which has no value, and one with none. -/
example :
    (ofTree (parse "ORDER:cmc\none: a or (order:name) order:\ntwo: b".toList)).requests.map
        (fun r => r.settings.get .order) = [some "name".toList, some "cmc".toList] := by
  decide +kernel

end QueryDocument

end CardQuery
