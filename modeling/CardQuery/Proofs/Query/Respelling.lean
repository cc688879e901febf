import CardQuery.Proofs.Tree.Defect
import CardQuery.Proofs.Tree.Respelling
import CardQuery.Query.Residue

/-!
# Settings of what is spelled anew

Taking the settings out of a tree looks at the kinds of its nodes and at its setting tags. So a
respelling under which every tag says the same setting, with the value spelled anew, cuts the same
parts out and keeps the respelled rest.

Main statement: `Tree.stripRegion_respell`.
-/

set_option autoImplicit false

namespace CardQuery

/-- A node whose setting, if it is a tag that gives one, is kept with its value spelled anew. -/
def NodeKind.KeepsSetting (r : Respelling) (value : Text → Text) (k : NodeKind)
    (cs : List Tree) : Prop :=
  k = .tag → settingOf? (.node k (cs.map (Tree.respell r)))
    = (settingOf? (.node k cs)).map (Prod.map id value)

variable (r : Respelling) (value : Text → Text)

namespace Stripped

/-- What is left, spelled anew. -/
def respell (s : Stripped) : Stripped :=
  ⟨s.kept.map (Option.map r.token), s.settings.map (Prod.map id value), s.onlySettings⟩

@[simp] theorem onlySettings_respell (s : Stripped) :
    (s.respell r value).onlySettings = s.onlySettings := rfl

theorem ofTokens_respell (ts : List Token) :
    ofTokens (ts.map r.token) = (ofTokens ts).respell r value := by
  simp [ofTokens, respell]

theorem cut_respell (settings : List (SettingKey × Text)) :
    cut (settings.map (Prod.map id value)) = (cut settings).respell r value := rfl

theorem concat_respell (parts : List Stripped) :
    concat (parts.map (respell r value)) = (concat parts).respell r value := by
  simp [concat, respell, List.flatMap_map, List.map_flatMap]

theorem clause_respell (parts : List (Bool × Stripped)) :
    clause (parts.map (Prod.map id (respell r value))) = (clause parts).respell r value := by
  have hwhole : concat ((parts.map (Prod.map id (respell r value))).map Prod.snd)
      = (concat (parts.map Prod.snd)).respell r value := by
    rw [← concat_respell, List.map_map, List.map_map]
    rfl
  have hinner : (parts.map (Prod.map id (respell r value))).filter Prod.fst
      = (parts.filter Prod.fst).map (Prod.map id (respell r value)) := by
    rw [List.filter_map]
    rfl
  unfold clause
  rw [hwhole, hinner]
  simp only [List.isEmpty_map, List.all_map, Function.comp_def, Prod.map_snd,
    onlySettings_respell]
  split
  · exact cut_respell r value _
  · rfl

theorem binary_respell (parts : List (Tree × Stripped)) (op : Connective) :
    binary (parts.map (Prod.map (Tree.respell r) (respell r value))) op
      = (binary parts op).respell r value := by
  have hwhole : ∀ operands : List Bool,
      concat ((parts.map (Prod.map (Tree.respell r) (respell r value))).map fun p =>
        if p.1.tokenKind? = some (.keyword op) ∧ operands.any id then cut [] else p.2)
      = (concat (parts.map fun p =>
        if p.1.tokenKind? = some (.keyword op) ∧ operands.any id then cut [] else p.2)).respell
          r value := by
    intro operands
    rw [← concat_respell, List.map_map, List.map_map]
    congr 1
    refine List.map_congr_left fun p _ => ?_
    simp only [Function.comp_apply, Prod.map_fst, Prod.map_snd, Tree.tokenKind?_respell]
    split <;> rfl
  have hoperands : ((parts.map (Prod.map (Tree.respell r) (respell r value))).filter fun p =>
        p.1.isExpression).map (fun p => p.2.onlySettings)
      = (parts.filter fun p => p.1.isExpression).map fun p => p.2.onlySettings := by
    simp [List.filter_map, Function.comp_def]
  unfold binary
  rw [hoperands]
  simp only [hwhole]
  rfl

end Stripped

namespace Tree

mutual

theorem all_of_forall {p : NodeKind → List Tree → Prop} (h : ∀ k cs, p k cs) (t : Tree) :
    t.All p := by
  cases t with
  | token t => simp
  | node k cs => exact (all_node k cs).2 ⟨h k cs, allOf_of_forall h cs⟩

theorem allOf_of_forall {p : NodeKind → List Tree → Prop} (h : ∀ k cs, p k cs)
    (cs : List Tree) : AllOf p cs := by
  cases cs with
  | nil => simp
  | cons c cs => exact (allOf_cons c cs).2 ⟨all_of_forall h c, allOf_of_forall h cs⟩

end

mutual

theorem strip_respell {t : Tree} (h : t.All (NodeKind.KeepsSetting r value)) :
    (t.respell r).strip = t.strip.respell r value := by
  cases t with
  | token t => simp [strip, ← Stripped.ofTokens_respell]
  | node k cs =>
      obtain ⟨hk, hcs⟩ := (all_node k cs).1 h
      have hrest := stripEach_respell hcs
      have hflat := Stripped.ofTokens_respell r value (tokensOf cs)
      rw [← tokensOf_respell] at hflat
      rw [respell_node]
      cases k with
      | tag =>
          have htag := hk rfl
          simp only [strip, htag]
          cases settingOf? (.node .tag cs) with
          | none => exact hflat
          | some given => rfl
      | clause =>
          have hclause := Stripped.clause_respell r value
            ((stripEach cs).map fun p => (p.1.isExpression, p.2))
          simp only [strip, hrest, ← hclause, List.map_map]
          congr 1
          refine List.map_congr_left fun p _ => ?_
          simp
      | binary op => simp only [strip, hrest, Stripped.binary_respell]
      | _ => simpa only [strip] using hflat

theorem stripEach_respell {cs : List Tree} (h : AllOf (NodeKind.KeepsSetting r value) cs) :
    stripEach (cs.map (respell r))
      = (stripEach cs).map (Prod.map (respell r) (Stripped.respell r value)) := by
  cases cs with
  | nil => simp [stripEach]
  | cons c cs =>
      obtain ⟨hc, hcs⟩ := (allOf_cons c cs).1 h
      simp [stripEach, strip_respell hc, stripEach_respell hcs]

end

/-- What is left of a region spelled anew is what was left, spelled anew. -/
theorem stripRegion_respell {t : Tree} (h : t.All (NodeKind.KeepsSetting r value)) :
    (t.respell r).stripRegion = t.stripRegion.respell r value := by
  have hchildren : ∀ c ∈ t.children, c.All (NodeKind.KeepsSetting r value) := by
    cases t with
    | token t => simp [children]
    | node k cs => exact allOf_iff_forall.1 ((all_node k cs).1 h).2
  unfold stripRegion
  rw [children_respell, List.map_map, ← Stripped.concat_respell, List.map_map]
  congr 1
  refine List.map_congr_left fun c hc => ?_
  simp only [Function.comp_apply, isExpression_respell]
  split
  · exact strip_respell r value (hchildren c hc)
  · rw [tokens_respell]
    exact Stripped.ofTokens_respell r value c.tokens

end Tree

theorem piecesOf_map (f : Token → Token) (kept : List (Option Token)) :
    piecesOf (kept.map (Option.map f)) = (piecesOf kept).map (List.map f) := by
  induction kept with
  | nil => rfl
  | cons x kept ih =>
      cases x with
      | none => simp [piecesOf, ih]
      | some t =>
          simp only [List.map_cons, Option.map_some, piecesOf, ih]
          cases piecesOf kept <;> simp

namespace QuerySettings

/-- Settings with their values spelled anew. -/
def map (s : QuerySettings) : QuerySettings :=
  ⟨s.order.map value, s.dir.map value, s.unique.map value⟩

theorem get_map (s : QuerySettings) (key : SettingKey) :
    (s.map value).get key = (s.get key).map value := by
  cases key <;> rfl

theorem map_set (s : QuerySettings) (key : SettingKey) (v : Text) :
    (s.set key v).map value = (s.map value).set key (value v) := by
  cases key <;> rfl

theorem ofList_map (given : List (SettingKey × Text)) :
    ofList (given.map (Prod.map id value)) = (ofList given).map value := by
  show (given.map _).foldl _ (empty.map value) = _
  unfold ofList
  generalize empty = s
  induction given generalizing s with
  | nil => rfl
  | cons g given ih => rw [List.map_cons, List.foldl_cons, List.foldl_cons, ← ih, map_set]; rfl

end QuerySettings

end CardQuery
