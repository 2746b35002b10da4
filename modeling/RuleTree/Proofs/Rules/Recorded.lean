import RuleTree.Graph.Basic
import RuleTree.Proofs.Outcome
import RuleTree.Proofs.Rules.Address
import Mathlib.Data.List.Flatten
/-!
# Edges recorded

`Rules.recorded` reads the edges of a rule tree off its expressions, in order. Where edges
can be made at all and the tree is no expression itself, these are the edges
(`Rules.edges_eq_recorded`). Under the conditions of `Rules.PlainEdges` their paths are
told apart by their written forms (`Rules.PlainEdges.of_mem`).
-/

namespace RuleTree.Rules

/-! ## Reading off edges -/

/-- The paths that an expression asks for, none if it is at fault. -/
def asked (e : Value) : List String := (Expr.ofValue e).dependencies.toOption.getD []

theorem asked_eq {e : Value} {paths : List String}
    (h : (Expr.ofValue e).dependencies = .ok paths) : asked e = paths := by
  rw [asked, h]
  rfl

/-- The edges of a rule tree, read off its expressions in order : an expression reads each
path that it asks for, prolonged by its own address without the first segment. -/
def recorded (rules : Value) : List Edge :=
  (expressions rules).flatMap fun (address, e) =>
    (asked e).map fun p => ⟨address, Path.ofText p ++ address.tail⟩

theorem edgesAt_eq_map {address : Path} {e : Value} {es : List Edge}
    (h : edgesAt address e = .ok es) : es = (asked e).map (edge address) := by
  obtain ⟨paths, hpaths, h⟩ := exists_of_bind_eq_ok h
  obtain rfl : paths.map (edge address) = es := Except.ok.inj h
  rw [asked_eq hpaths]

theorem edge_of_ne_nil {address : Path} (h : address ≠ []) (p : String) :
    edge address p = ⟨address, Path.ofText p ++ address.tail⟩ := by
  cases address with
  | nil => exact absurd rfl h
  | cons first rest => rfl

/-- The edges of each expression are those of the paths that it asks for. -/
theorem flatten_eq_of_forall₂ {pairs : List (Path × Value)} {each : List (List Edge)}
    (h : List.Forall₂ (fun p es => edgesAt p.1 p.2 = .ok es) pairs each) :
    each.flatten = pairs.flatMap fun (address, e) => (asked e).map (edge address) := by
  induction h with
  | nil => rfl
  | cons hp _ ih => rw [List.flatten_cons, List.flatMap_cons, ih, edgesAt_eq_map hp]

variable {rules : Value}

/-- An edge is recorded for each path that an expression at an address asks for. -/
theorem mem_recorded {edge : Edge} : edge ∈ recorded rules ↔ ∃ address e p,
    StandsAt rules address e ∧ p ∈ asked e ∧ edge = ⟨address, Path.ofText p ++ address.tail⟩ := by
  rw [recorded, List.mem_flatMap]
  constructor
  · rintro ⟨⟨address, e⟩, he, hm⟩
    obtain ⟨p, hp, rfl⟩ := List.mem_map.mp hm
    exact ⟨address, e, p, mem_expressions_iff.mp he, hp, rfl⟩
  · rintro ⟨address, e, p, he, hp, rfl⟩
    exact ⟨(address, e), mem_expressions_iff.mpr he, List.mem_map.mpr ⟨p, hp, rfl⟩⟩

/-- Edges are those of each expression in turn, and no list is too long for them. -/
theorem exists_each_of_edges {es : List Edge} (h : edges rules = .ok es) :
    ∃ each, (expressions rules).mapM (fun (address, e) => edgesAt address e) = .ok each ∧
      isWritable rules = true ∧ each.flatten = es := by
  obtain ⟨each, heach, h⟩ := exists_of_bind_eq_ok h
  cases hw : isWritable rules with
  | true =>
    rw [hw] at h
    exact ⟨each, heach, rfl, Except.ok.inj h⟩
  | false =>
    rw [hw] at h
    cases h

theorem isWritable_of_edges {es : List Edge} (h : edges rules = .ok es) :
    isWritable rules = true := by
  obtain ⟨-, -, hw, -⟩ := exists_each_of_edges h
  exact hw

/-- The edges of a rule tree are made for the paths that its expressions ask for, in order. -/
theorem edges_eq_flatMap {es : List Edge} (h : edges rules = .ok es) :
    es = (expressions rules).flatMap fun (address, e) => (asked e).map (edge address) := by
  obtain ⟨each, heach, -, rfl⟩ := exists_each_of_edges h
  exact flatten_eq_of_forall₂ (forall₂_of_mapM_eq_ok heach)

/-- The edges are those for the paths that the expressions in the tree ask for. -/
theorem mem_edges_iff {es : List Edge} (h : edges rules = .ok es) {e : Edge} :
    e ∈ es ↔
      ∃ address logic p, StandsAt rules address logic ∧ p ∈ asked logic ∧ e = edge address p := by
  rw [edges_eq_flatMap h, List.mem_flatMap]
  constructor
  · rintro ⟨⟨address, logic⟩, hmem, he⟩
    obtain ⟨p, hp, rfl⟩ := List.mem_map.mp he
    exact ⟨address, logic, p, mem_expressions_iff.mp hmem, hp, rfl⟩
  · rintro ⟨address, logic, p, hs, hp, rfl⟩
    exact ⟨(address, logic), mem_expressions_iff.mpr hs, List.mem_map.mpr ⟨p, hp, rfl⟩⟩

theorem edges_eq_recorded (hr : rules.isExpression = false) {es : List Edge}
    (h : edges rules = .ok es) : es = recorded rules := by
  rw [edges_eq_flatMap h, recorded]
  refine List.flatMap_congr fun ⟨address, e⟩ he => List.map_congr_left fun p _ => ?_
  exact edge_of_ne_nil ((mem_expressions_iff.mp he).ne_nil hr) p

/-! ## Plain edges -/

/-- The paths that the expressions of a rule tree ask for. -/
def askedPaths (rules : Value) : List String := (expressions rules).flatMap fun (_, e) => asked e

/-- A path is asked for exactly if some expression asks for it. -/
theorem mem_askedPaths_iff {p : String} :
    p ∈ askedPaths rules ↔ ∃ address e, StandsAt rules address e ∧ p ∈ asked e := by
  rw [askedPaths, List.mem_flatMap]
  constructor
  · rintro ⟨⟨address, e⟩, he, hp⟩
    exact ⟨address, e, mem_expressions_iff.mp he, hp⟩
  · rintro ⟨address, e, he, hp⟩
    exact ⟨(address, e), mem_expressions_iff.mpr he, hp⟩

/-- The segments of edges are keys, positions and segments of what is asked for. -/
theorem forall_mem_recorded {ok : String → Prop} (hkeys : ∀ key ∈ groupKeys rules, ok key)
    (hpositions : ∀ n : Nat, ok (toString n))
    (hpaths : ∀ p ∈ askedPaths rules, ∀ s ∈ Path.ofText p, ok s) {edge : Edge}
    (he : edge ∈ recorded rules) : (∀ s ∈ edge.reader, ok s) ∧ ∀ s ∈ edge.target, ok s := by
  obtain ⟨address, e, p, hs, hp, rfl⟩ := mem_recorded.mp he
  have haddress := hs.forall_mem_address hkeys hpositions
  have hasked := hpaths p (mem_askedPaths_iff.mpr ⟨address, e, hs, hp⟩)
  refine ⟨haddress, fun s hm => ?_⟩
  rcases List.mem_append.mp hm with hm | hm
  · exact hasked s hm
  · exact haddress s (List.mem_of_mem_tail hm)

/-- What makes the paths of all edges plain. -/
structure PlainEdges (rules : Value) : Prop where
  /-- The rule tree is no expression itself. -/
  group : rules.isExpression = false
  /-- The keys on the way to expressions are plain. -/
  keys : ∀ key ∈ groupKeys rules, Path.Plain key
  /-- No path asked for has an empty segment. -/
  paths : ∀ p ∈ askedPaths rules, ∀ s ∈ Path.ofText p, s ≠ ""

namespace PlainEdges

variable {address : Path} {e : Value}

theorem of_standsAt (h : PlainEdges rules) (hs : StandsAt rules address e) :
    address ≠ [] ∧ ∀ s ∈ address, Path.Plain s :=
  ⟨hs.ne_nil h.group, hs.forall_mem_address h.keys Path.plain_toString⟩

/-- The segments of recorded edges are plain on both sides. -/
theorem of_mem (h : PlainEdges rules) {edge : Edge} (he : edge ∈ recorded rules) :
    (edge.reader ≠ [] ∧ ∀ s ∈ edge.reader, Path.Plain s) ∧
      edge.target ≠ [] ∧ ∀ s ∈ edge.target, Path.Plain s := by
  have hasked : ∀ p ∈ askedPaths rules, ∀ s ∈ Path.ofText p, Path.Plain s :=
    fun p hp s hs => Path.plain_of_mem_ofText hs (h.paths p hp s hs)
  obtain ⟨hreader, htarget⟩ := forall_mem_recorded h.keys Path.plain_toString hasked he
  obtain ⟨address, e, p, hs, -, rfl⟩ := mem_recorded.mp he
  exact ⟨⟨(h.of_standsAt hs).1, hreader⟩,
    List.append_ne_nil_of_left_ne_nil (Path.ofText_ne_nil p) _, htarget⟩

end PlainEdges

end RuleTree.Rules
