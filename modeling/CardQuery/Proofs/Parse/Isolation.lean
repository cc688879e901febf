import CardQuery.Proofs.Parse.Recut
import CardQuery.Proofs.Parse.Report
import CardQuery.Proofs.Token.Slice
import CardQuery.Proofs.Tree.Outline

/-!
# The parts of a text are read alone

A text with headers has parts: the domain, and its queries. What is read of a part does not depend
on what stands around it, so each part can be read from its own text, to the same tree and the same
problems.

Main statement: `parse_parts`.
-/

set_option autoImplicit false

namespace CardQuery

/-! ## Messages -/

/-- The messages of the syntax errors of a tree. -/
def messages (t : Tree) : List String :=
  (syntaxErrors t).map fun e => e.problem.message

mutual

/-- What is wrong with a tree does not depend on where it stands. -/
theorem map_problem_problemsFrom (start start' : Nat) (t : Tree) :
    (problemsFrom start t).map PlacedProblem.problem
      = (problemsFrom start' t).map PlacedProblem.problem := by
  cases t with
  | token t => simp
  | node k cs =>
      have hcs := map_problem_problemsOf start start' cs
      simp [problemsFrom, hcs, Function.comp_def]

theorem map_problem_problemsOf (start start' : Nat) (cs : List Tree) :
    (problemsOf start cs).map PlacedProblem.problem
      = (problemsOf start' cs).map PlacedProblem.problem := by
  cases cs with
  | nil => simp
  | cons c cs =>
      rw [problemsOf_cons, problemsOf_cons, List.map_append, List.map_append,
        map_problem_problemsFrom start start' c,
        map_problem_problemsOf (start + c.width) (start' + c.width) cs]

end

theorem messages_eq (start : Nat) (t : Tree) :
    messages t = (problemsFrom start t).map fun p => p.problem.message := by
  have hmap := congrArg (List.map Problem.message) (map_problem_problemsFrom 0 start t)
  simpa [messages, syntaxErrors, Function.comp_def] using hmap

theorem map_message_problemsOf (start : Nat) (cs : List Tree) :
    ((problemsOf start cs).map fun p => p.problem.message) = cs.flatMap messages := by
  induction cs generalizing start with
  | nil => simp
  | cons c cs ih => rw [problemsOf_cons, List.map_append, ih, ← messages_eq, List.flatMap_cons]

/-- An outer node has the messages of its children. -/
theorem messages_outer {k : NodeKind} (hk : k.isOuter = true) (cs : List Tree) :
    messages (.node k cs) = cs.flatMap messages := by
  rw [messages_eq 0, problemsFrom_outer 0 hk, map_message_problemsOf]

theorem flatMap_messages_map_token (ts : List Token) :
    (ts.map Tree.token).flatMap messages = [] := by
  rw [← map_message_problemsOf 0, problemsOf_map_token, List.map_nil]

/-! ## The parts of a text -/

/-- Whether a node is a part of a text with headers. -/
def NodeKind.isPart : NodeKind → Bool
  | .domain | .query => true
  | _ => false

/-- The domain and the queries of a tree, wherever they stand in it. -/
def Tree.parts (t : Tree) : List Focus :=
  t.nodes.filter fun f => f.tree.kind?.any NodeKind.isPart

/-- The domain of the tokens before the first header, when there is one. -/
def domainOf (run : List Token) : List Tree :=
  match run.dropWhile Token.isBlank with
  | [] => []
  | solid => [.node .domain (regionTrees solid)]

theorem domainTrees_eq (run : List Token) :
    domainTrees run = (run.takeWhile Token.isBlank).map .token ++ domainOf run := rfl

/-- What is read of a region has no parts. -/
theorem nodesOfEach_regionTrees {ts : List Token} (hts : ∀ t ∈ ts, t.IsLexeme) :
    Tree.nodesOfEach NodeKind.isPart (regionTrees ts) = [] := by
  refine Tree.nodesOfEach_of_formed (fun k hk => ?_) (formed_regionTrees hts)
  cases k <;> first | rfl | cases hk

theorem nodesOfEach_domainOf {run : List Token} (hrun : ∀ t ∈ run, t.IsLexeme) :
    Tree.nodesOfEach NodeKind.isPart (domainOf run) = domainOf run := by
  unfold domainOf
  split
  · simp
  · next hsolid =>
      simp [Tree.nodesOf_node, NodeKind.isPart,
        nodesOfEach_regionTrees (isLexeme_of_dropWhile hrun)]

theorem Section.nodesOf_tree {s : Section} (hs : ∀ t ∈ s.tokens, t.IsLexeme) :
    s.tree.nodesOf NodeKind.isPart = [s.tree] := by
  simp [tree, Tree.leaf, Tree.nodesOf_node, NodeKind.isPart,
    nodesOfEach_regionTrees (isLexeme_of_body hs)]

theorem nodesOfEach_sections {sections : List Section}
    (h : ∀ s ∈ sections, ∀ t ∈ s.tokens, t.IsLexeme) :
    Tree.nodesOfEach NodeKind.isPart (sections.map Section.tree) = sections.map Section.tree := by
  induction sections with
  | nil => simp
  | cons s sections ih =>
      obtain ⟨hs, hrest⟩ := List.forall_mem_cons.1 h
      rw [List.map_cons, Tree.nodesOfEach_cons, s.nodesOf_tree hs, ih hrest, List.singleton_append]

/-- The parts of a text with headers are its domain and its sections. -/
theorem map_tree_parts {ts run : List Token} {s : Section} {sections : List Section}
    (hts : ∀ t ∈ ts, t.IsLexeme) (hcut : cutAtHeaders ts = (run, s :: sections)) :
    (parseTokens ts).parts.map Focus.tree = domainOf run ++ (s :: sections).map Section.tree := by
  obtain ⟨hrun, hsections⟩ := isLexeme_of_cut hts hcut
  have htree : parseTokens ts
      = .node .program (domainTrees run ++ (s :: sections).map Section.tree) := by
    rw [parseTokens, hcut]
  rw [Tree.parts, Tree.map_tree_nodes, htree, Tree.nodesOf_node, if_neg (by decide),
    List.nil_append, Tree.nodesOfEach_append, domainTrees_eq, Tree.nodesOfEach_append,
    Tree.nodesOfEach_map_token, List.nil_append, nodesOfEach_domainOf hrun,
    nodesOfEach_sections hsections]

/-- A text without headers has no parts. -/
theorem parts_eq_nil {ts run : List Token} (hts : ∀ t ∈ ts, t.IsLexeme)
    (hcut : cutAtHeaders ts = (run, [])) : (parseTokens ts).parts = [] := by
  have htree : parseTokens ts = .node .program (regionTrees run) := by
    rw [parseTokens, hcut]
  rw [← List.map_eq_nil_iff (f := Focus.tree), Tree.parts, Tree.map_tree_nodes, htree,
    Tree.nodesOf_node, if_neg (by decide), List.nil_append,
    nodesOfEach_regionTrees (isLexeme_of_cut hts hcut).1]

/-! ## Parts read alone -/

/-- **The text of a section is read as that section alone.** -/
theorem parse_text_section {t : Text} {s : Section} (h : s ∈ (cutAtHeaders (tokenize t)).2) :
    parse s.tree.text = .node .program [s.tree] := by
  have hpart : s.tokens <:+: tokenize t := by
    have hcut := cutFrom_tokens true true (tokenize t)
    obtain ⟨before, after, hsections⟩ := List.append_of_mem h
    rw [cutAtHeaders] at hsections
    rw [hsections, List.flatMap_append, List.flatMap_cons] at hcut
    exact ⟨(cutFrom true true (tokenize t)).1 ++ before.flatMap Section.tokens,
      after.flatMap Section.tokens, by simpa using hcut⟩
  rw [parse, s.text_tree, tokenize_tokensText_of_part hpart, parseTokens, cutAtHeaders_section h]
  rfl

/-- **The text of the domain is read as its expressions alone.** -/
theorem parse_text_domain {t : Text} {run : List Token} {sections : List Section}
    (hcut : cutAtHeaders (tokenize t) = (run, sections)) {d : Tree} (hd : d ∈ domainOf run) :
    parse d.text = .node .program d.children := by
  have hsolid : run.dropWhile Token.isBlank <:+: tokenize t := by
    have htokens := cutFrom_tokens true true (tokenize t)
    rw [cutAtHeaders] at hcut
    rw [hcut] at htokens
    exact ((List.dropWhile_suffix _).isInfix).trans ⟨[], _, htokens⟩
  obtain rfl : d = .node .domain (regionTrees (run.dropWhile Token.isBlank)) := by
    unfold domainOf at hd
    split at hd
    · cases hd
    · exact List.mem_singleton.1 hd
  have htext : (Tree.node .domain (regionTrees (run.dropWhile Token.isBlank))).text
      = tokensText (run.dropWhile Token.isBlank) := by
    rw [Tree.text, Tree.tokens_node, tokensText_regionTrees]
  rw [parse, htext, tokenize_tokensText_of_part hsolid, parseTokens,
    cutAtHeaders_domain (touching_tokenize t) hcut]
  rfl

theorem mem_parts {t : Tree} {f : Focus} {k : NodeKind} (hf : f ∈ t.nodes)
    (hk : f.tree.isKind k = true) (hpart : k.isPart = true) : f ∈ t.parts := by
  have hkind : f.tree.kind? = some k := by simpa [Tree.isKind] using hk
  exact List.mem_filter.2 ⟨hf, by simpa [hkind] using hpart⟩

/-- A part of a text is the domain of what stands before its first header, or a section. -/
theorem part_cases {t : Text} {f : Focus} (h : f ∈ (parse t).parts) :
    f.tree ∈ domainOf (cutAtHeaders (tokenize t)).1 ∨
      ∃ s ∈ (cutAtHeaders (tokenize t)).2, f.tree = s.tree := by
  have hlex : ∀ x ∈ tokenize t, x.IsLexeme := fun x hx => isLexeme_of_mem_tokenize hx
  rcases hcut : cutAtHeaders (tokenize t) with ⟨run, sections⟩
  cases sections with
  | nil =>
      rw [parse, parts_eq_nil hlex hcut] at h
      cases h
  | cons s sections =>
      have htree : f.tree ∈ domainOf run ++ (s :: sections).map Section.tree := by
        rw [← map_tree_parts hlex hcut]
        exact List.mem_map_of_mem h
      rcases List.mem_append.1 htree with hdomain | hsection
      · exact Or.inl hdomain
      · obtain ⟨s', hs', heq⟩ := List.mem_map.1 hsection
        exact Or.inr ⟨s', hs', heq.symm⟩

theorem kind?_of_mem_domainOf {run : List Token} {d : Tree} (h : d ∈ domainOf run) :
    d.kind? = some .domain := by
  unfold domainOf at h
  split at h
  · cases h
  · rw [List.mem_singleton.1 h]
    rfl

/-- Every query of a text is read back from its own text. -/
theorem parse_text_query {t : Text} {n : Focus} (hn : n ∈ (parse t).nodes)
    (hk : n.tree.isKind .query = true) : parse n.tree.text = .node .program [n.tree] := by
  rcases part_cases (mem_parts hn hk rfl) with hdomain | ⟨s, hs, hsection⟩
  · simp [Tree.isKind, kind?_of_mem_domainOf hdomain] at hk
  · rw [hsection]
    exact parse_text_section hs

/-- A part read alone has the messages that it has in the text. -/
theorem messages_part {t : Text} {f : Focus} (h : f ∈ (parse t).parts) :
    messages (parse f.tree.text) = messages f.tree := by
  rcases part_cases h with hdomain | ⟨s, hs, hsection⟩
  · have hkind := kind?_of_mem_domainOf hdomain
    rw [parse_text_domain rfl hdomain, messages_outer rfl]
    cases hf : f.tree with
    | token x => simp [hf, Tree.kind?] at hkind
    | node k cs =>
        obtain rfl : k = .domain := by simpa [hf, Tree.kind?] using hkind
        rw [messages_outer rfl, Tree.children]
  · rw [hsection, parse_text_section hs, messages_outer rfl, List.flatMap_singleton]

theorem exists_section_of_headers {ts : List Token} (h : headers ts ≠ []) :
    ∃ run s sections, cutAtHeaders ts = (run, s :: sections) := by
  rcases hcut : cutAtHeaders ts with ⟨run, sections⟩
  cases sections with
  | cons s sections => exact ⟨run, s, sections, rfl⟩
  | nil =>
      have hlength := length_headers ts
      rw [hcut] at hlength
      exact absurd (List.eq_nil_of_length_eq_zero hlength) h

/-- **The parts of a text are read alone.** In a text with headers, the text of a query is read as
that query and nothing else, and the text of the domain as the expressions of the domain. The
messages of the text are those of its parts, each read alone, in order. So what is wrong in one
query changes no other: queries of the same text have the same tree, in whatever texts they
stand. -/
theorem parse_parts (t : Text) (h : headers (tokenize t) ≠ []) :
    (∀ n ∈ (parse t).nodes, n.tree.isKind .query = true →
        parse n.tree.text = .node .program [n.tree])
      ∧ (∀ d ∈ (parse t).nodes, d.tree.isKind .domain = true →
        parse d.tree.text = .node .program d.tree.children)
      ∧ messages (parse t) = (parse t).parts.flatMap (fun f => messages (parse f.tree.text))
      ∧ ∀ (u : Text), ∀ n ∈ (parse t).nodes, ∀ m ∈ (parse u).nodes,
        n.tree.isKind .query = true → m.tree.isKind .query = true →
          n.tree.text = m.tree.text → n.tree = m.tree := by
  refine ⟨fun n hn hk => parse_text_query hn hk, ?_, ?_, ?_⟩
  · intro d hd hk
    rcases part_cases (mem_parts hd hk rfl) with hdomain | ⟨s, hs, hsection⟩
    · exact parse_text_domain rfl hdomain
    · rw [hsection] at hk
      simp [Section.tree, Tree.isKind, Tree.kind?] at hk
  · obtain ⟨run, s, sections, hcut⟩ := exists_section_of_headers h
    have hlex : ∀ x ∈ tokenize t, x.IsLexeme := fun x hx => isLexeme_of_mem_tokenize hx
    have halone : (parse t).parts.flatMap (fun f => messages (parse f.tree.text))
        = ((parse t).parts.map Focus.tree).flatMap messages := by
      rw [List.flatMap_map]
      exact List.flatMap_congr fun f hf => messages_part hf
    rw [halone, parse, map_tree_parts hlex hcut, parseTokens, hcut]
    show messages (.node .program (domainTrees run ++ (s :: sections).map Section.tree)) = _
    rw [messages_outer rfl, domainTrees_eq, List.append_assoc, List.flatMap_append,
      flatMap_messages_map_token, List.nil_append]
  · intro u n hn m hm hnk hmk htext
    have hread := parse_text_query hn hnk
    rw [htext, parse_text_query hm hmk] at hread
    simpa using hread.symm

/-- An open clause in the domain, and parentheses and an `or` that fit nowhere in the queries. -/
theorem parse_parts_faulty :
    headers (tokenize "(a\nq: b) or\nall: )c".toList) ≠ [] ∧
      messages (parse "(a\nq: b) or\nall: )c".toList)
        = ["expected ')'", "unmatched ')'", "expected a term after 'or'", "unmatched ')'"] ∧
      messages (parse "(a\nq: b) or\nall: )c".toList)
        = (parse "(a\nq: b) or\nall: )c".toList).parts.flatMap
            (fun f => messages (parse f.tree.text)) :=
  have h : headers (tokenize "(a\nq: b) or\nall: )c".toList) ≠ [] := by decide +kernel
  ⟨h, by decide +kernel, (parse_parts _ h).2.2.1⟩

end CardQuery
