import RuleTree.Proofs.Graph.Readers
/-!
# Closure of a path

In a directed graph without wildcards, propagation from a path lists the path's edges and then
what propagation from each of them lists, so the chain it carries has no part in the result.
Each path is listed as often as trails that start with an edge lead to it
(`Engine.propagate_closure`).
-/

namespace RuleTree

namespace Graph

open RuleTree.Path

variable {g : Graph} {direction : Direction}

/-- What propagation lists beyond each edge is what propagation from the edge lists. -/
theorem propagate_eq_append (hd : direction ≠ .undirected) {p : String} {all : List Value}
    (h : g.propagate direction (.str p) = .ok all) :
    ∃ found beyond, g.edges (ofText p) direction = .ok found ∧
      List.Forall₂ (fun v each => g.propagate direction v = .ok each) found beyond ∧
      all = found ++ beyond.flatten := by
  obtain ⟨rest, found, beyond, hrest, he, -, hbeyond, rfl⟩ := of_walk_text_eq_ok hd h
  refine ⟨found, beyond, he, hbeyond.imp fun v each hwalk => ?_, rfl⟩
  refine walk_mono hd (by omega) (fun w hw => ?_) hwalk
  rw [inChain_append, Bool.or_eq_true]
  exact Or.inr (by simpa [inChain] using hw)

end Graph

namespace Engine

open RuleTree.Path Rules

variable {rules : Value} {settings : Settings} {e : Engine}

/-- Propagation that succeeds lists the edges of a path and then what lies beyond each, and
every path as often as there are trails to it. -/
theorem propagate_closure (he : ofRules rules settings = .ok e)
    (hkeys : ∀ key ∈ groupKeys rules, Throughout (· ≠ wildcard) key)
    (hpaths : ∀ p ∈ askedPaths rules, Throughout (· ≠ wildcard) p) {p : String}
    (hp : Throughout (· ≠ wildcard) p) {direction : Direction} (hd : direction ≠ .undirected)
    {all : List Value} (hall : e.propagate (.str p) direction = .ok all) :
    (∃ found beyond, e.graph.edges (ofText p) direction = .ok found ∧
      List.Forall₂ (fun v each => e.propagate v direction = .ok each) found beyond ∧
      all = found ++ beyond.flatten) ∧
    ∃ texts : List String, all = texts.map .str ∧ ∀ q,
      {positions | positions ≠ [] ∧ e.graph.Trail direction p positions q}.encard =
        texts.count q := by
  have hwalk : e.graph.propagate direction (.str p) = .ok all := of_mapError_eq_ok hall
  constructor
  · obtain ⟨found, beyond, hfound, hbeyond, heq⟩ := Graph.propagate_eq_append hd hwalk
    refine ⟨found, beyond, hfound, hbeyond.imp fun v each hv => ?_, heq⟩
    rw [propagate, hv]
    rfl
  · obtain ⟨-, -, hg⟩ := ofRules_eq_ok he
    have hconsists : Consists (· ≠ wildcard) rules := ⟨admissible_ne_wildcard, hkeys, hpaths⟩
    have hfinds := (Graph.finds_walkable hconsists hg direction).mono fun _ ht => ht.1
    obtain ⟨texts, rfl, -⟩ :=
      Graph.exists_texts_of_walk hfinds (fun _ ht => ht) (Or.inl hp) hwalk
    exact ⟨texts, rfl, Graph.encard_trails hd hfinds (Or.inl hp) hwalk⟩

/-- Two rules that read a source, and one that reads both of them. -/
def forkedReads : Value := .ofEntries [
  ("left", .ofEntries [("var", .str "root")]),
  ("right", .ofEntries [("var", .str "root")]),
  ("sink", .ofEntries [("+", .ofList [.ofEntries [("var", .str "left")],
    .ofEntries [("var", .str "right")]])])]

/-- A reader that two ways lead to is in the closure twice. -/
theorem propagate_closure_of_forkedReads : ∃ e, ofRules forkedReads .standard = .ok e ∧
    e.propagate (.str "root") .backward =
      .ok (["left", "right", "sink", "sink"].map .str) ∧
    {positions | positions ≠ [] ∧
      e.graph.Trail .backward "root" positions "sink"}.encard = 2 := by
  obtain ⟨e, he⟩ : ∃ e, ofRules forkedReads .standard = .ok e := ⟨_, rfl⟩
  have hall : e.propagate (.str "root") .backward =
      .ok (["left", "right", "sink", "sink"].map .str) := by
    obtain rfl := Except.ok.inj he
    rfl
  obtain ⟨-, texts, htexts, hcount⟩ :=
    propagate_closure he (by decide) (by decide) (by decide) (by decide) hall
  obtain rfl := List.map_injective_iff.mpr (fun _ _ => Value.str.inj) htexts
  exact ⟨e, he, hall, hcount "sink"⟩

end Engine

end RuleTree
