import RuleTree.Proofs.Engine.Closure
import RuleTree.Proofs.Graph.Flat
import Mathlib.Algebra.BigOperators.Group.Multiset.Basic
/-!
# Converse walks

A walk along a directed graph lists a path as often as there are ways to it
(`Graph.count_walk`), and ways are counted by the paths they start with as well as by those
they end with (`Graph.ways_succ_eq`). The edges of flat rules are the same forward and back,
as many times (`Graph.count_edgesAt_comm`), so there are as many ways forward from one path
to another as back. Hence propagation from one path lists another as often as propagation
back from that one lists the first (`Engine.count_propagate_comm`).
-/

namespace RuleTree

namespace Graph

open RuleTree.Path

/-! ## Ways -/

/-- The number of ways of a length from one path to another, along edges listed for each path. -/
def ways (next : String → List String) : Nat → String → String → Nat
  | 0, u, v => if u = v then 1 else 0
  | n + 1, u, v => ((next u).map fun w => ways next n w v).sum

theorem sum_map_comm {α β : Type} (f : α → β → Nat) (l : List α) (m : List β) :
    (l.map fun a => (m.map (f a)).sum).sum = (m.map fun b => (l.map fun a => f a b).sum).sum := by
  simpa using Multiset.sum_map_sum_map (f := f) (l : Multiset α) (m : Multiset β)

theorem sum_ite_eq (l : List String) (v : String) :
    (l.map fun w => if w = v then 1 else 0).sum = l.count v := by
  induction l with
  | nil => rfl
  | cons w l ih =>
    rw [List.map_cons, List.sum_cons, ih, List.count_cons, Nat.add_comm]
    simp

section

variable {next prev : String → List String}

theorem ways_one (u v : String) : ways next 1 u v = (next u).count v := sum_ite_eq _ v

variable (h : ∀ u v, (next u).count v = (prev v).count u)
include h

/-- A way ends with an edge, as it starts with one. -/
theorem ways_succ_eq : ∀ (n : Nat) (u v : String),
    ways next (n + 1) u v = ((prev v).map fun w => ways next n u w).sum
  | 0, u, v => by
    rw [ways_one, h, ← sum_ite_eq]
    simp only [ways, eq_comm]
  | n + 1, u, v => by
    calc ways next (n + 2) u v
        = ((next u).map fun w => ((prev v).map fun x => ways next n w x).sum).sum := by
          rw [ways]
          exact congrArg _ (List.map_congr_left fun w _ => ways_succ_eq n w v)
      _ = ((prev v).map fun x => ways next (n + 1) u x).sum := sum_map_comm _ _ _

/-- There are as many ways back. -/
theorem ways_comm : ∀ (n : Nat) (u v : String), ways next n u v = ways prev n v u
  | 0, u, v => by
    rw [ways, ways]
    simp only [eq_comm]
  | n + 1, u, v => by
    rw [ways_succ_eq h, ways]
    exact congrArg _ (List.map_congr_left fun w _ => ways_comm n u w)

end

/-! ## Walks -/

/-- What lies beyond some paths lists each path as often as all of it together. -/
theorem exists_count_flatten {count : String → String → Nat} {next : List String}
    {beyond : List (List Value)} (h : List.Forall₂ (fun v each => ∃ texts : List String,
      each = texts.map .str ∧ ∀ q, texts.count q = count v q) next beyond) :
    ∃ more : List String, beyond.flatten = more.map .str ∧
      ∀ q, more.count q = (next.map fun v => count v q).sum := by
  induction h with
  | nil => exact ⟨[], rfl, fun _ => rfl⟩
  | cons hv _ ih =>
    obtain ⟨texts, rfl, htexts⟩ := hv
    obtain ⟨more, hmore, hcount⟩ := ih
    refine ⟨texts ++ more, by simp [hmore], fun q => ?_⟩
    rw [List.count_append, htexts, hcount, List.map_cons, List.sum_cons]

/-- Each path is listed once for every way to it that has an edge : a walk with fuel left
nowhere needed more, so its ways are shorter than the fuel. -/
theorem count_walk {g : Graph} {direction : Direction} (hd : direction ≠ .undirected)
    {domain : String → Prop} {next : String → List String}
    (hnext : ∀ u, domain u → g.edges (ofText u) direction = .ok ((next u).map .str) ∧
      ∀ v ∈ next u, domain v) : ∀ {fuel : Nat} {chain : List Value} {u : String}
      {all : List Value}, domain u → walk g direction fuel chain (.str u) = .ok all →
        ∃ texts : List String, all = texts.map .str ∧ ∀ q,
          texts.count q = ((List.range fuel).map fun n => ways next (n + 1) u q).sum := by
  intro fuel
  induction fuel with
  | zero =>
    intro chain u all _ h
    cases h
  | succ fuel ih =>
    intro chain u all hu h
    obtain ⟨rest, found, beyond, hrest, he, -, hbeyond, rfl⟩ := of_walk_text_eq_ok hd h
    obtain rfl := Nat.succ.inj hrest
    obtain ⟨hfound, hdomain⟩ := hnext u hu
    obtain rfl := Except.ok.inj (he.symm.trans hfound)
    have heach : List.Forall₂ (fun v each => ∃ texts : List String, each = texts.map .str ∧
        ∀ q, texts.count q = ((List.range fuel).map fun n => ways next (n + 1) v q).sum)
        (next u) beyond := by
      rw [List.forall₂_map_left_iff] at hbeyond
      refine ((List.forall₂_and_left (next u) beyond).mpr ⟨hdomain, hbeyond⟩).imp ?_
      exact fun v each ⟨hv, hwalk⟩ => ih hv hwalk
    obtain ⟨more, hmore, hcount⟩ := exists_count_flatten heach
    refine ⟨next u ++ more, by rw [hmore, List.map_append], fun q => ?_⟩
    rw [List.count_append, hcount, sum_map_comm, List.range_succ_eq_map, List.map_cons,
      List.sum_cons, ways_one, List.map_map]
    rfl

/-! ## Flat rules -/

open EdgeMap Rules

variable {rules : Value} {g : Graph}

theorem count_edgesAt {pairs : List (Path × String)} (path : Path) (edge : String) :
    (EdgeMap.edgesAt path pairs).count edge = pairs.count (path, edge) := by
  rw [EdgeMap.edgesAt, List.count, List.countP_map, List.countP_filter, List.count]
  refine List.countP_congr fun pair _ => ?_
  simp [Prod.ext_iff, and_comm]

/-- The edges of flat rules are recorded as often by their readers as by what they read. -/
theorem count_edgesAt_comm (h : Flat rules) (u v : String) :
    (EdgeMap.edgesAt [u] (byReader (recorded rules))).count v =
      (EdgeMap.edgesAt [v] (byTarget (recorded rules))).count u := by
  rw [count_edgesAt, count_edgesAt, byReader, byTarget, List.count, List.count, List.countP_map,
    List.countP_map]
  refine List.countP_congr fun edge hedge => ?_
  obtain ⟨p, r, -, rfl⟩ := h.mem_recorded_iff.mp hedge
  simp [text, and_comm]

end Graph

namespace Engine

open RuleTree.Path Rules

variable {rules : Value} {settings : Settings} {e : Engine}

/-- Propagation from a path of flat rules lists another one as often as propagation back from
that one lists the first. -/
theorem count_propagate_comm (he : ofRules rules settings = .ok e) (h : Flat rules)
    {p q : String} (hp : Simple p) (hq : Simple q) {ahead behind : List Value}
    (hahead : e.propagate (.str p) .forward = .ok ahead)
    (hbehind : e.propagate (.str q) .backward = .ok behind) :
    ∃ texts texts' : List String, ahead = texts.map .str ∧ behind = texts'.map .str ∧
      texts.count q = texts'.count p := by
  obtain ⟨-, -, hg⟩ := ofRules_eq_ok he
  let next := fun u => EdgeMap.edgesAt [u] (Graph.byReader (recorded rules))
  let prev := fun u => EdgeMap.edgesAt [u] (Graph.byTarget (recorded rules))
  have hnext : ∀ u, Simple u →
      e.graph.edges (ofText u) .forward = .ok ((next u).map .str) ∧ ∀ v ∈ next u, Simple v :=
    fun u hu => ⟨(Graph.edges_directed h hg hu).1, fun v hv =>
      (h.simple_of_reads ((Graph.mem_byReader h).mp (EdgeMap.mem_edgesAt.mp hv))).1⟩
  have hprev : ∀ u, Simple u →
      e.graph.edges (ofText u) .backward = .ok ((prev u).map .str) ∧ ∀ v ∈ prev u, Simple v :=
    fun u hu => ⟨(Graph.edges_directed h hg hu).2, fun v hv =>
      (h.simple_of_reads ((Graph.mem_byTarget h).mp (EdgeMap.mem_edgesAt.mp hv))).2⟩
  -- with the same fuel both walks count ways of the same lengths
  let fuel := max (e.graph.chainBound .forward) (e.graph.chainBound .backward)
  have hwalk : Graph.walk e.graph .forward fuel [.str p] (.str p) = .ok ahead :=
    Graph.walk_mono (by decide) (le_max_left _ _) (fun _ hv => hv) (of_mapError_eq_ok hahead)
  have hwalk' : Graph.walk e.graph .backward fuel [.str q] (.str q) = .ok behind :=
    Graph.walk_mono (by decide) (le_max_right _ _) (fun _ hv => hv) (of_mapError_eq_ok hbehind)
  obtain ⟨texts, rfl, htexts⟩ := Graph.count_walk (by decide) hnext hp hwalk
  obtain ⟨texts', rfl, htexts'⟩ := Graph.count_walk (by decide) hprev hq hwalk'
  refine ⟨texts, texts', rfl, rfl, ?_⟩
  rw [htexts, htexts']
  refine congrArg _ (List.map_congr_left fun n _ => ?_)
  exact Graph.ways_comm (Graph.count_edgesAt_comm h) (n + 1) p q

theorem flat_forkedReads : Flat forkedReads where
  group := rfl
  single := List.forall_mem_cons.mpr ⟨⟨"left", rfl, by decide⟩,
    List.forall_mem_cons.mpr ⟨⟨"right", rfl, by decide⟩,
      List.forall_mem_singleton.mpr ⟨"sink", rfl, by decide⟩⟩⟩
  paths := by decide

/-- Two ways from one path to another are two ways back. -/
theorem count_propagate_comm_of_forkedReads : ∃ e, ofRules forkedReads .standard = .ok e ∧
    ∃ texts texts' : List String, e.propagate (.str "sink") .forward = .ok (texts.map .str) ∧
      e.propagate (.str "root") .backward = .ok (texts'.map .str) ∧
      texts.count "root" = 2 ∧ texts'.count "sink" = 2 := by
  obtain ⟨e, he⟩ : ∃ e, ofRules forkedReads .standard = .ok e := ⟨_, rfl⟩
  have hahead : e.propagate (.str "sink") .forward =
      .ok (["left", "right", "root", "root"].map .str) := by
    obtain rfl := Except.ok.inj he
    rfl
  have hbehind : e.propagate (.str "root") .backward =
      .ok (["left", "right", "sink", "sink"].map .str) := by
    obtain rfl := Except.ok.inj he
    rfl
  obtain ⟨texts, texts', htexts, htexts', hcount⟩ :=
    count_propagate_comm he flat_forkedReads (by decide) (by decide) hahead hbehind
  obtain rfl := List.map_injective_iff.mpr (fun _ _ => Value.str.inj) htexts
  exact ⟨e, he, _, texts', hahead, htexts' ▸ hbehind, rfl, hcount.symm⟩

end Engine

end RuleTree
