import RuleTree.Proofs.Graph.Build
import RuleTree.Proofs.Rules.Recorded
/-!
# Exactness of dependency graphs

Both maps of a graph are built from the edges recorded (`Graph.ofRules_eq`). So the edge
sets listed in each direction are those of the edges recorded, each once, and both
directions have the same edges (`Graph.edgeSets_perm`).
-/

namespace RuleTree.Graph

open EdgeMap Rules

/-- The edges by their readers. -/
def byReader (es : List Edge) : List (Path × String) := es.map fun e => (e.reader, e.target.text)

/-- The edges by what they read. -/
def byTarget (es : List Edge) : List (Path × String) := es.map fun e => (e.target, e.reader.text)

theorem ofEdges_eq (es : List Edge) :
    ofEdges es = ⟨build (byReader es), build (byTarget es)⟩ := by
  simp [ofEdges, build, byReader, byTarget, List.foldl_map]

variable {rules : Value} {g : Graph}

theorem ofRules_eq (hr : rules.isExpression = false) (hg : ofRules rules = .ok g) :
    g = ⟨build (byReader (recorded rules)), build (byTarget (recorded rules))⟩ := by
  obtain ⟨es, hes, hg⟩ := exists_of_bind_eq_ok hg
  obtain rfl : ofEdges es = g := Except.ok.inj hg
  rw [edges_eq_recorded hr hes, ofEdges_eq]

theorem plainPaths_byReader (h : PlainEdges rules) : PlainPaths (byReader (recorded rules)) := by
  intro pair hpair
  obtain ⟨e, he, rfl⟩ := List.mem_map.mp hpair
  exact (h.of_mem he).1

theorem plainPaths_byTarget (h : PlainEdges rules) : PlainPaths (byTarget (recorded rules)) := by
  intro pair hpair
  obtain ⟨e, he, rfl⟩ := List.mem_map.mp hpair
  exact (h.of_mem he).2

/-- The edge sets of a rule tree's graph are, in each direction, those of the edges recorded :
each written path once, with its edges in order. Both directions have the same edges. -/
theorem edgeSets_perm (hr : rules.isExpression = false) (hg : ofRules rules = .ok g)
    (hkeys : ∀ key ∈ groupKeys rules, Path.Plain key)
    (hpaths : ∀ p ∈ askedPaths rules, ∀ s ∈ Path.ofText p, s ≠ "") :
    (edgeSets [] (g.view .forward)).Perm (listed (byReader (recorded rules))) ∧
      (edgeSets [] (g.view .backward)).Perm (listed (byTarget (recorded rules))) ∧
      ∀ r d : String,
        (∃ set, (r, set) ∈ edgeSets [] (g.view .forward) ∧ .str d ∈ elements set) ↔
          ∃ set, (d, set) ∈ edgeSets [] (g.view .backward) ∧ .str r ∈ elements set := by
  have hplain : PlainEdges rules := ⟨hr, hkeys, hpaths⟩
  have hforward := edgeSets_build (plainPaths_byReader hplain)
  have hbackward := edgeSets_build (plainPaths_byTarget hplain)
  rw [ofRules_eq hr hg]
  refine ⟨hforward, hbackward, fun r d => ?_⟩
  simp only [view, hforward.mem_iff, hbackward.mem_iff, mem_listed]
  simp [byReader, byTarget, and_comm, and_left_comm]

/-- Rules that read a path, a path below it, and the path prolonged by a key or a position. -/
def nestedReads : Value := .ofEntries [
  ("a", .ofEntries [("+", .ofList [.ofEntries [("var", .str "x.y")],
    .ofEntries [("var", .str "x")]])]),
  ("b", .ofEntries [("c", .ofEntries [("var", .str "x")])]),
  ("d", .ofList [.ofEntries [("var", .str "x")]]),
  ("e", .ofEntries [("var", .str "x")])]

/-- The sets of rules in groups, of which one path is read as a whole and in parts. -/
theorem edgeSets_perm_of_nestedReads : ∃ g : Graph, ofRules nestedReads = .ok g ∧
    (edgeSets [] (g.view .forward)).Perm [
      ("a", .ofTexts ["x.y", "x"]), ("b.c", .ofTexts ["x.c"]), ("d.0", .ofTexts ["x.0"]),
      ("e", .ofTexts ["x"])] ∧
    (edgeSets [] (g.view .backward)).Perm [
      ("x.y", .ofTexts ["a"]), ("x.c", .ofTexts ["b.c"]), ("x.0", .ofTexts ["d.0"]),
      ("x", .ofTexts ["a", "e"])] := by
  obtain ⟨g, hg⟩ : ∃ g, ofRules nestedReads = .ok g := ⟨_, rfl⟩
  obtain ⟨hforward, hbackward, -⟩ := edgeSets_perm rfl hg (by decide) (by decide)
  exact ⟨g, hg, hforward, hbackward⟩

end RuleTree.Graph
