import RuleTree.Engine
import RuleTree.Proofs.Graph.Walks
/-!
# Readers of a path

The target of an edge is what an expression asks for, prolonged by a part of its address.
A look-up at a path finds every edge at or below it (`Graph.exists_edges_of_recorded`), so
it finds the readers of the path whatever their addresses are. A walk goes on from every
edge that it finds (`Graph.exists_walk_of_mem`), and a change of a path is propagated
along every chain of readers (`Engine.mem_propagate_of_reads`).
-/

namespace RuleTree

/-! ## Looking up a path -/

namespace EdgeMap

/-- A strict reading along the first part of a path leads to the node with the rest. -/
theorem exists_read_of_set? {rest : Path} {set : Value} : ∀ {path : Path} {node : Value},
    (∀ s ∈ path, s ≠ Path.wildcard) → set? (path ++ rest) node = some set →
      ∃ inner, node.read path true = .ok inner ∧ set? rest inner = some set
  | [], node, _, hset => ⟨node, rfl, hset⟩
  | segment :: path, .map id entries, hpath, hset => by
    rw [List.cons_append, set?_map_cons] at hset
    obtain ⟨v, hv, hset⟩ := Option.bind_eq_some_iff.mp hset
    have hrest : ∀ s ∈ path, s ≠ Path.wildcard :=
      fun s hs => hpath s (List.mem_cons_of_mem _ hs)
    obtain ⟨inner, hread, hset⟩ := exists_read_of_set? hrest hset
    refine ⟨inner, ?_, hset⟩
    have hchild : (Value.map id entries).child? segment = .ok (some v) := by
      rw [Value.child?, hv]
    rw [Value.read_cons rfl (hpath segment (by simp)), hchild]
    exact hread
  | _ :: _, .list .., _, hset => by cases hset
  | segment :: path, .null, _, hset | segment :: path, .bool _, _, hset
  | segment :: path, .num _, _, hset | segment :: path, .str _, _, hset => by
    rw [set?_of_isScalar rfl] at hset
    cases hset

/-- The edges in a node are those of all its edge sets. -/
theorem elements_subset_edgesIn {path : Path} {node set : Value} (hpath : ownKey ∉ path)
    (hset : set? path node = some set) : elements set ⊆ Graph.edgesIn node := by
  intro edge hedge
  cases node with
  | map id entries =>
    refine List.mem_flatMap.mpr ⟨(path.text, set), ?_, hedge⟩
    rw [edgeSets_eq]
    exact List.mem_map.mpr ⟨(path, set), mem_sets_of_set? hpath hset, rfl⟩
  | list id items =>
    cases path with
    | nil =>
      obtain rfl := Option.some.inj hset
      exact hedge
    | cons => cases hset
  | _ =>
    rw [set?_of_isScalar rfl] at hset
    cases hset

/-- A strict reading along the first part of an edge's path finds a node with the edge in it. -/
theorem Carries.exists_read_of_mem {node : Value} {pairs : List (Path × String)}
    (h : Carries node pairs) {e : Path × String} (he : e ∈ pairs) {path rest : Path}
    (hrest : e.1 = path ++ rest) (hpath : ∀ s ∈ path, s ≠ Path.wildcard) :
    ∃ inner, node.read path true = .ok inner ∧ inner.isScalar = false ∧
      .str e.2 ∈ Graph.edgesIn inner := by
  have hset := h.set?_of_mem he
  have hat : e.2 ∈ edgesAt e.1 pairs :=
    List.mem_map.mpr ⟨e, List.mem_filter.mpr ⟨he, by simp⟩, rfl⟩
  have hin : .str e.2 ∈ elements (.ofTexts (edgesAt e.1 pairs)) :=
    List.mem_map.mpr ⟨_, hat, rfl⟩
  have hown : ownKey ∉ rest :=
    fun hm => h.ownKey_not_mem e he (hrest ▸ List.mem_append_right _ hm)
  obtain ⟨inner, hread, hinner⟩ := exists_read_of_set? hpath (hrest ▸ hset)
  refine ⟨inner, hread, Bool.eq_false_iff.mpr fun hs => ?_,
    elements_subset_edgesIn hown hinner (hrest ▸ hin)⟩
  rw [set?_of_isScalar hs] at hinner
  cases hinner

end EdgeMap

namespace Graph

open EdgeMap Rules

variable {rules : Value} {g : Graph}

/-- A look-up at the first part of an edge's target finds the edge's reader. -/
theorem exists_edges_of_recorded (h : PlainEdges rules) (hg : ofRules rules = .ok g)
    {edge : Edge} (he : edge ∈ recorded rules) {path rest : Path}
    (ht : edge.target = path ++ rest) (hpath : ∀ s ∈ path, s ≠ Path.wildcard) :
    ∃ found, g.edges path .backward = .ok found ∧ .str edge.reader.text ∈ found := by
  have hpair : (edge.target, edge.reader.text) ∈ byTarget (recorded rules) :=
    List.mem_map.mpr ⟨edge, he, rfl⟩
  obtain ⟨inner, hread, -, hmem⟩ :=
    (carries_build (plainPaths_byTarget h)).exists_read_of_mem hpair ht hpath
  refine ⟨edgesIn inner, ?_, hmem⟩
  rw [ofRules_eq h.group hg, edges, view, hread]
  rfl

/-! ## Walks -/

/-- A walk along a directed graph lists what a look-up finds and, for each edge found, what a
walk on from there lists. -/
theorem exists_walk_of_mem {direction : Direction} (hd : direction ≠ .undirected) {fuel : Nat}
    {chain : List Value} {path : String} {all : List Value}
    (h : walk g direction fuel chain (.str path) = .ok all) :
    ∃ found, g.edges (Path.ofText path) direction = .ok found ∧ found ⊆ all ∧
      ∀ edge ∈ found, ∃ fuel chain beyond,
        walk g direction fuel chain edge = .ok beyond ∧ beyond ⊆ all := by
  obtain ⟨rest, found, beyond, -, he, -, hbeyond, rfl⟩ := of_walk_text_eq_ok hd h
  refine ⟨found, he, List.subset_append_left _ _, fun edge hedge => ?_⟩
  obtain ⟨next, hnext, hwalk⟩ := exists_mem_right_of_forall₂ hbeyond hedge
  refine ⟨rest, _, next, hwalk, fun v hv => ?_⟩
  exact List.mem_append_right _ (List.mem_flatten.mpr ⟨next, hnext, hv⟩)

end Graph

/-! ## Chains of readers -/

namespace Rules

/-- The expression at a rule path asks for a path. -/
def Reads (rules : Value) (p r : String) : Prop :=
  ∃ address e, (address, e) ∈ expressions rules ∧ p ∈ asked e ∧ addressText address = r

variable {rules : Value} {p r : String}

/-- The segments of a rule path are those of its address. -/
theorem Reads.exists_address (h : PlainEdges rules) (hread : Reads rules p r) :
    ∃ address e, StandsAt rules address e ∧ p ∈ asked e ∧ r = address.text ∧
      Path.ofText r = address := by
  obtain ⟨address, e, he, hp, rfl⟩ := hread
  have hs := mem_expressions_iff.mp he
  obtain ⟨hne, hplain⟩ := h.of_standsAt hs
  rw [addressText_of_plain hplain]
  exact ⟨address, e, hs, hp, rfl, Path.ofText_text_of_plain hne hplain⟩

end Rules

namespace Graph

open Rules

variable {rules : Value} {g : Graph}

/-- A look-up at a path finds every rule that reads it. -/
theorem exists_edges_of_reads (h : PlainEdges rules) (hg : ofRules rules = .ok g) {p r : String}
    (hp : ∀ s ∈ Path.ofText p, s ≠ Path.wildcard) (hread : Reads rules p r) :
    ∃ found, g.edges (Path.ofText p) .backward = .ok found ∧ .str r ∈ found := by
  obtain ⟨address, e, hs, hmem, rfl, -⟩ := hread.exists_address h
  exact exists_edges_of_recorded h hg (mem_recorded.mpr ⟨address, e, p, hs, hmem, rfl⟩) rfl hp

/-- A walk back from a path lists the end of every chain of readers. -/
theorem mem_walk_of_transGen (h : PlainEdges rules)
    (hwild : ∀ key ∈ groupKeys rules, key ≠ Path.wildcard) (hg : ofRules rules = .ok g)
    {p r : String} (hchain : Relation.TransGen (Reads rules) p r) :
    (∀ s ∈ Path.ofText p, s ≠ Path.wildcard) → ∀ {fuel : Nat} {chain all : List Value},
      walk g .backward fuel chain (.str p) = .ok all → .str r ∈ all := by
  -- the fuel and the chain vary along the readers, so the induction is on their first step
  induction hchain using Relation.TransGen.head_induction_on with
  | single hread =>
    intro hp fuel chain all hwalk
    obtain ⟨found, hfound, hall, -⟩ := exists_walk_of_mem (by decide) hwalk
    obtain ⟨found', hfound', hmem⟩ := exists_edges_of_reads h hg hp hread
    obtain rfl := Except.ok.inj (hfound.symm.trans hfound')
    exact hall hmem
  | head hread _ ih =>
    intro hp fuel chain all hwalk
    obtain ⟨found, hfound, -, hnext⟩ := exists_walk_of_mem (by decide) hwalk
    obtain ⟨found', hfound', hmem⟩ := exists_edges_of_reads h hg hp hread
    obtain rfl := Except.ok.inj (hfound.symm.trans hfound')
    obtain ⟨fuel', chain', beyond, hbeyond, hall⟩ := hnext _ hmem
    obtain ⟨address, e, hs, -, -, hsegments⟩ := hread.exists_address h
    have haddress := hs.forall_mem_address hwild Path.toString_ne_wildcard
    exact hall (ih (hsegments ▸ haddress) hbeyond)

end Graph

namespace Engine

open Rules

variable {rules : Value} {settings : Settings} {e : Engine}

/-- The parts of an engine are the rules and their graph. -/
theorem ofRules_eq_ok (h : ofRules rules settings = .ok e) :
    e.rules = rules ∧ e.settings = settings ∧ Graph.ofRules rules = .ok e.graph := by
  obtain ⟨g, hg, h⟩ := exists_of_bind_eq_ok h
  obtain rfl := Except.ok.inj h
  exact ⟨rfl, rfl, hg⟩

/-- An engine has no list so long that a position in it cannot be written. -/
theorem isWritable_of_ofRules (h : ofRules rules settings = .ok e) : isWritable rules = true := by
  obtain ⟨-, -, hg⟩ := ofRules_eq_ok h
  obtain ⟨es, hes, -⟩ := exists_of_bind_eq_ok hg
  exact isWritable_of_edges hes

/-- Propagation back from a path lists every rule that reads it, reads the path of such a
rule, and so on along any chain. -/
theorem mem_propagate_of_reads (hr : rules.isExpression = false)
    (he : ofRules rules settings = .ok e)
    (hkeys : ∀ key ∈ groupKeys rules, Path.Plain key ∧ key ≠ Path.wildcard)
    (hpaths : ∀ p ∈ askedPaths rules, ∀ s ∈ Path.ofText p, s ≠ "") {p : String}
    (hp : ∀ s ∈ Path.ofText p, s ≠ Path.wildcard) {found : List Value}
    (hfound : e.propagate (.str p) .backward = .ok found) {r : String}
    (hchain : Relation.TransGen (Reads rules) p r) : .str r ∈ found := by
  obtain ⟨-, -, hg⟩ := ofRules_eq_ok he
  have hplain : PlainEdges rules := ⟨hr, fun key hk => (hkeys key hk).1, hpaths⟩
  have hwild : ∀ key ∈ groupKeys rules, key ≠ Path.wildcard := fun key hk => (hkeys key hk).2
  exact Graph.mem_walk_of_transGen hplain hwild hg hchain hp (of_mapError_eq_ok hfound)

/-- Rules that read each other through a group and a list. -/
def readerChain : Value := .ofEntries [
  ("base", .ofEntries [("+", .ofList [.ofEntries [("var", .str "income")], .int 1])]),
  ("taxes", .ofEntries [("city", .ofEntries [("var", .str "base")])]),
  ("report", .ofList [.ofEntries [("var", .str "taxes.city")]])]

/-- A chain of three reads that ends in a list. -/
theorem mem_propagate_of_readerChain : ∃ e found, ofRules readerChain .standard = .ok e ∧
    e.propagate (.str "income") .backward = .ok found ∧ .str "report.0" ∈ found := by
  have hok : ((ofRules readerChain .standard).mapError EngineError.evaluation >>= fun e =>
      e.propagate (.str "income") .backward).isOk = true := by decide +kernel
  obtain ⟨found, hfound⟩ := exists_of_isOk hok
  obtain ⟨e, he, hfound⟩ := exists_of_bind_eq_ok hfound
  have he := of_mapError_eq_ok he
  have hbase : Reads readerChain "income" "base" :=
    ⟨["base"], _, List.mem_cons_self .., by decide, rfl⟩
  have hcity : Reads readerChain "base" "taxes.city" :=
    ⟨["taxes", "city"], _, List.mem_cons_of_mem _ (List.mem_cons_self ..), by decide, rfl⟩
  have hreport : Reads readerChain "taxes.city" "report.0" :=
    ⟨["report", "0"], _,
      List.mem_cons_of_mem _ (List.mem_cons_of_mem _ (List.mem_cons_self ..)), by decide, rfl⟩
  refine ⟨e, found, he, hfound, ?_⟩
  exact mem_propagate_of_reads rfl he (by decide) (by decide) (by decide) hfound
    (.head hbase (.head hcity (.single hreport)))

end Engine

end RuleTree
