import RuleTree.Proofs.Graph.Readers
import RuleTree.Proofs.Graph.Sites
/-!
# Look-ups at the first part of a path

A path of names leads through the maps of an edge map only, so a strict reading along it finds
the node that holds what the edge map holds below the path, or nothing if that is nothing
(`EdgeMap.read_of_named`). The edges in a node are those of its edge sets, and these are the
edges that it carries (`EdgeMap.Carries.perm_edgesIn`). So a look-up finds the edges recorded at
or below the path, each as often as it is recorded, in both directions (`Graph.edges_perm`).
-/

namespace RuleTree

open scoped List

namespace Path

/-- A segment that is not empty and neither the wildcard nor digits only. -/
def Named (s : String) : Prop := s ≠ "" ∧ s ≠ wildcard ∧ s.toList.all Text.isDigit = false

instance : DecidablePred Named := fun _ => inferInstanceAs (Decidable (_ ∧ _ ∧ _))

theorem Named.readIndex {s : String} (h : Named s) : Text.readIndex s.toList = .notDigits := by
  simp [Text.readIndex, h.2.2]

end Path

namespace EdgeMap

/-! ## Reading along names -/

/-- A strict reading along names finds the node with the edge sets below the path, or nothing
if there are none. -/
theorem read_of_named : ∀ {path : Path} {node : Value}, Unnested node → node.distinctKeys = true →
    (∀ s ∈ path, Path.Named s) →
      (∃ inner, node.read path true = .ok inner ∧ Unnested inner ∧ inner.distinctKeys = true ∧
        ∀ rest, set? rest inner = set? (path ++ rest) node) ∨
      node.read path true = .ok .null ∧ ∀ rest, set? (path ++ rest) node = none
  | [], node, hnode, hdistinct, _ => Or.inl ⟨node, rfl, hnode, hdistinct, fun _ => rfl⟩
  | segment :: path, node, hnode, hdistinct, hpath => by
    have hs := hpath segment (List.mem_cons_self ..)
    have hrest : ∀ s ∈ path, Path.Named s := fun s hm => hpath s (List.mem_cons_of_mem _ hm)
    have hmissing : node.child? segment = .ok none →
        node.read (segment :: path) true = .ok .null := fun hchild => by
      rw [Value.read_cons hnode.isScalar hs.2.1, hchild]
      rfl
    cases hnode with
    | list =>
      refine Or.inr ⟨hmissing ?_, fun rest => rfl⟩
      rw [Value.child?, hs.readIndex]
    | @map id entries keys own below =>
      cases hv : Entries.get? segment entries with
      | none =>
        refine Or.inr ⟨hmissing (by rw [Value.child?, hv]), fun rest => ?_⟩
        rw [List.cons_append, set?_map_cons, hv]
        rfl
      | some v =>
        have he := Entries.mem_of_get? hv
        have hread : (Value.map id entries).read (segment :: path) true = v.read path true :=
          read_cons_of_child rfl hs.2.1 (by rw [Value.child?, hv]) path
        have hset : ∀ rest, set? (segment :: path ++ rest) (.map id entries) =
            set? (path ++ rest) v := fun rest => by
          rw [List.cons_append, set?_map_cons, hv]
          rfl
        simp only [hread, hset]
        exact read_of_named (below segment v he) ((Value.distinctKeys_map hdistinct).2 segment v he)
          hrest

/-! ## The edges in a node -/

/-- The edges in a node are those of its edge sets. -/
theorem edgesIn_eq_flatMap {node : Value} (h : node.isScalar = false) :
    Graph.edgesIn node = (sets node).flatMap fun s => elements s.2 := by
  cases node with
  | list id items => simp [Graph.edgesIn, sets]
  | map id entries =>
    rw [Graph.edgesIn, edgeSets_eq, List.flatMap_map]
  | null | bool | num | str => cases h

/-- The edges at each of some distinct paths are, together, those that have one of the paths. -/
theorem perm_flatMap_edgesAt {paths : List Path} (hn : paths.Nodup) :
    ∀ {pairs : List (Path × String)}, (∀ e ∈ pairs, e.1 ∈ paths) →
      (paths.flatMap fun path => edgesAt path pairs).Perm (pairs.map Prod.snd)
  | [], _ => List.Perm.of_eq (List.flatMap_eq_nil_iff.mpr fun _ _ => rfl)
  | (p, edge) :: pairs, h => by
    have hfirst : ∀ path, edgesAt path ((p, edge) :: pairs) =
        if path = p then edge :: edgesAt path pairs else edgesAt path pairs := by
      intro path
      by_cases hp : path = p
      · simp [edgesAt, hp]
      · simp [edgesAt, hp, Ne.symm hp]
    have hp : p ∈ paths := h _ (List.mem_cons_self ..)
    have hsplit := List.perm_cons_erase hp
    have hothers : ((paths.erase p).flatMap fun path => edgesAt path ((p, edge) :: pairs)) =
        (paths.erase p).flatMap fun path => edgesAt path pairs := by
      refine List.flatMap_congr fun path hm => ?_
      rw [hfirst, if_neg (hn.mem_erase_iff.mp hm).1]
    calc (paths.flatMap fun path => edgesAt path ((p, edge) :: pairs))
      _ ~ (p :: paths.erase p).flatMap fun path => edgesAt path ((p, edge) :: pairs) :=
          hsplit.flatMap_right _
      _ = edge :: (p :: paths.erase p).flatMap fun path => edgesAt path pairs := by
          rw [List.flatMap_cons, hothers, hfirst, if_pos rfl, List.flatMap_cons]
          rfl
      _ ~ edge :: paths.flatMap fun path => edgesAt path pairs :=
          (hsplit.symm.flatMap_right _).cons edge
      _ ~ edge :: pairs.map Prod.snd :=
          (perm_flatMap_edgesAt hn fun e he => h e (List.mem_cons_of_mem _ he)).cons edge

/-- The edges at or below a path, with what their paths have left. -/
def below (path : Path) (pairs : List (Path × String)) : List (Path × String) :=
  (pairs.filter fun e => path <+: e.1).map fun e => (e.1.drop path.length, e.2)

/-- The edges at a path below another one are those at both put together. -/
theorem edgesAt_below (path rest : Path) (pairs : List (Path × String)) :
    edgesAt rest (below path pairs) = edgesAt (path ++ rest) pairs := by
  unfold edgesAt below
  rw [List.filter_map, List.map_map, List.filter_filter]
  refine congrArg _ (List.filter_congr fun e _ => ?_)
  have hiff : (e.1.drop path.length = rest ∧ path <+: e.1) ↔ e.1 = path ++ rest := by
    constructor
    · rintro ⟨hrest, tail, htail⟩
      rw [← htail, List.drop_left] at hrest
      rw [← htail, hrest]
    · intro he
      exact ⟨by rw [he, List.drop_left], ⟨rest, he.symm⟩⟩
  simp [← hiff]

namespace Carries

variable {node : Value} {pairs : List (Path × String)}

/-- The edges in a node are the edges that it carries. -/
theorem perm_edgesIn (h : Carries node pairs) (hnode : node.isScalar = false) :
    Graph.edgesIn node ~ pairs.map fun e => .str e.2 := by
  have hfirsts : ∀ e ∈ pairs, e.1 ∈ (pairs.map Prod.fst).dedup :=
    fun e he => List.mem_dedup.mpr (List.mem_map.mpr ⟨e, he, rfl⟩)
  calc Graph.edgesIn node
      = (sets node).flatMap fun s => elements s.2 := edgesIn_eq_flatMap hnode
    _ ~ ((pairs.map Prod.fst).dedup.map fun path =>
          (path, Value.ofTexts (edgesAt path pairs))).flatMap fun s => elements s.2 :=
        h.perm_sets.flatMap_right _
    _ = ((pairs.map Prod.fst).dedup.flatMap fun path => edgesAt path pairs).map .str := by
        rw [List.flatMap_map, List.map_flatMap]
        rfl
    _ ~ (pairs.map Prod.snd).map .str :=
        (perm_flatMap_edgesAt (List.nodup_dedup _) hfirsts).map _
    _ = pairs.map fun e => .str e.2 := List.map_map

/-- A strict reading along names finds the edges at or below the path. -/
theorem exists_read (h : Carries node pairs) (hnode : Unnested node) {path : Path}
    (hpath : ∀ s ∈ path, Path.Named s) : ∃ found, node.read path true = .ok found ∧
      Graph.edgesIn found ~ (pairs.filter fun e => path <+: e.1).map fun e => .str e.2 := by
  rcases read_of_named hnode h.distinct hpath with
    ⟨inner, hread, hinner, hdistinct, hset⟩ | ⟨hread, hset⟩
  · have hcarries : Carries inner (below path pairs) := by
      refine ⟨hdistinct, fun e he => ?_, fun rest hrest => ?_⟩
      · obtain ⟨e, hm, rfl⟩ := List.mem_map.mp he
        exact fun hown => h.ownKey_not_mem e (List.mem_of_mem_filter hm) (List.mem_of_mem_drop hown)
      · have hplace : ownKey ∉ path ++ rest := by
          rw [List.mem_append, not_or]
          exact ⟨fun hown => (hpath _ hown).1 rfl, hrest⟩
        rw [hset, h.set?_eq _ hplace, edgesAt_below]
    refine ⟨inner, hread, (hcarries.perm_edgesIn hinner.isScalar).trans (.of_eq ?_)⟩
    rw [below, List.map_map]
    rfl
  · have hnone : (pairs.filter fun e => path <+: e.1) = [] := by
      refine List.filter_eq_nil_iff.mpr fun e he hprefix => ?_
      obtain ⟨rest, hrest⟩ := of_decide_eq_true hprefix
      have hfound := h.set?_of_mem he
      rw [← hrest, hset] at hfound
      cases hfound
    exact ⟨.null, hread, by rw [hnone]; rfl⟩

end Carries

/-- A look-up in a built map finds the edges inserted at or below the path. -/
theorem exists_read_build {pairs : List (Path × String)} (h : PlainPaths pairs) {path : Path}
    (hpath : ∀ s ∈ path, Path.Named s) :
    ∃ found, (Value.ofEntries (build pairs)).read path true = .ok found ∧
      Graph.edgesIn found ~ (pairs.filter fun e => path <+: e.1).map fun e => .str e.2 := by
  refine (carries_build h).exists_read (node_build trivial (fun hn => hn.elim) (by simp) ?_
    (by simp)) hpath
  exact fun e he hown => ownKey_not_mem (h e he).2 (List.dropLast_subset _ hown)

end EdgeMap

/-! ## Look-ups -/

namespace Graph

open EdgeMap Rules

/-- A look-up at a path of names finds what the rules at or below the path read, and looking
back, the rules that read something at or below it. -/
theorem edges_perm {rules : Value} {g : Graph} (hr : rules.isExpression = false)
    (hg : ofRules rules = .ok g) (hkeys : ∀ key ∈ groupKeys rules, Path.Plain key)
    (hpaths : ∀ p ∈ askedPaths rules, ∀ s ∈ Path.ofText p, s ≠ "") {path : Path}
    (hpath : ∀ s ∈ path, Path.Named s) :
    (∃ found, g.edges path .forward = .ok found ∧
      found ~ ((recorded rules).filter fun e => path <+: e.reader).map
        fun e => .str e.target.text) ∧
    ∃ found, g.edges path .backward = .ok found ∧
      found ~ ((recorded rules).filter fun e => path <+: e.target).map
        fun e => .str e.reader.text := by
  have hplain : PlainEdges rules := ⟨hr, hkeys, hpaths⟩
  obtain ⟨ahead, hahead, hperm⟩ := exists_read_build (plainPaths_byReader hplain) hpath
  obtain ⟨behind, hbehind, hperm'⟩ := exists_read_build (plainPaths_byTarget hplain) hpath
  rw [ofRules_eq hr hg]
  constructor
  · refine ⟨edgesIn ahead, by rw [edges, view, hahead]; rfl, hperm.trans (.of_eq ?_)⟩
    rw [byReader, List.filter_map, List.map_map]
    rfl
  · refine ⟨edgesIn behind, by rw [edges, view, hbehind]; rfl, hperm'.trans (.of_eq ?_)⟩
    rw [byTarget, List.filter_map, List.map_map]
    rfl

/-- A path with edges of its own and others below it. -/
theorem edges_perm_of_nestedReads : ∃ g : Graph, ofRules nestedReads = .ok g ∧
    (∃ found, g.edges ["b"] .forward = .ok found ∧ found ~ [.str "x.c"]) ∧
    ∃ found, g.edges ["x"] .backward = .ok found ∧
      found ~ ["a", "a", "b.c", "d.0", "e"].map .str := by
  obtain ⟨g, hg⟩ : ∃ g, ofRules nestedReads = .ok g := ⟨_, rfl⟩
  exact ⟨g, hg, (edges_perm rfl hg (by decide) (by decide) (by decide)).1,
    (edges_perm rfl hg (by decide) (by decide) (by decide)).2⟩

end Graph

end RuleTree
