import RuleTree.Proofs.Graph.Nodes
/-!
# Paths merged into an edge map

A path is merged into every list of an edge map, prolonged by the keys on the way to the list. As
long as no list stands under the key of own edges, these keys are the path under which the list
is listed (`EdgeMap.sets_merge`). So a merge appends one text to each list and keeps the paths and
their order, and merges one after the other append one text each (`EdgeMap.edgeSets_merge`).
-/

namespace RuleTree

namespace Path

/-- A segment written together with the next one is written as both. -/
theorem text_joined (first second : String) (rest : Path) :
    text ((first ++ "." ++ second) :: rest) = text (first :: second :: rest) := by
  cases rest with
  | nil => simp [text]
  | cons third rest =>
    rw [text_cons_cons, text_cons_cons, text_cons_cons]
    simp only [String.append_assoc]

end Path

namespace EdgeMap

/-! ## One merge -/

/-- A list of texts, or a map with plain keys to such nodes. No edges are a node's own. -/
abbrev Ownless : Value → Prop := Node Path.Plain (fun _ => True) True

variable {node : Value} {id : Ident} {entries : List (String × Value)}

theorem ownless_map_iff :
    Ownless (.map id entries) ↔ ∀ e ∈ entries, Path.Plain e.1 ∧ Ownless e.2 :=
  ⟨fun h e he => ⟨h.parts.1 e.1 e.2 he, h.parts.2.2 e.1 e.2 he⟩,
    fun h => .map (fun k v he => (h (k, v) he).1) (fun _ _ _ => trivial)
      fun k v he => (h (k, v) he).2⟩

theorem Ownless.merge (h : Ownless node) (path : String) : Ownless (merge path node) :=
  Node.merge h trivial (fun _ _ _ _ _ => trivial) trivial

theorem mergeEntries_eq_map (path : String) (entries : List (String × Value)) :
    mergeEntries path entries = entries.map fun e => (e.1, merge (path ++ "." ++ e.1) e.2) := by
  induction entries with
  | nil => rfl
  | cons e rest ih => rw [mergeEntries, ih, List.map_cons]

/-- The sets of a map without own edges are those under its keys, one key after the other. -/
theorem Ownless.sets_map (h : Ownless (.map id entries)) :
    sets (.map id entries) =
      entries.flatMap fun e => (sets e.2).map fun s => (e.1 :: s.1, s.2) := by
  rw [EdgeMap.sets_map]
  refine List.flatMap_congr fun e he => ?_
  have hkey : e.1 ≠ ownKey := (ownless_map_iff.mp h e he).1.1
  exact if_neg hkey

/-- A merge appends to each list the path, prolonged by the way to the list. -/
theorem sets_merge (h : Ownless node) : ∀ path : String, sets (merge path node) =
    (sets node).map fun s => (s.1, .ofList (elements s.2 ++ [.str (Path.text (path :: s.1))])) := by
  induction h with
  | @list id texts edges =>
    intro path
    simp [merge, sets, elements, Value.ofList, Path.text]
  | @map id entries keys own below ih =>
    intro path
    have hnode : Ownless (.map id entries) := .map keys own below
    have hmerged : Ownless (.ofEntries (mergeEntries path entries)) := hnode.merge path
    calc sets (merge path (.map id entries))
      _ = (mergeEntries path entries).flatMap fun e => (sets e.2).map fun s => (e.1 :: s.1, s.2) :=
          hmerged.sets_map
      _ = entries.flatMap fun e => (sets (merge (path ++ "." ++ e.1) e.2)).map
            fun s => (e.1 :: s.1, s.2) := by
          rw [mergeEntries_eq_map, List.flatMap_map]
      -- the key has been written behind the path, where it is now the next segment
      _ = entries.flatMap fun e => (sets e.2).map fun s => (e.1 :: s.1,
            .ofList (elements s.2 ++ [.str (Path.text (path :: e.1 :: s.1))])) := by
          refine List.flatMap_congr fun e he => ?_
          rw [ih e.1 e.2 he, List.map_map]
          simp only [Function.comp_def, Path.text_joined]
      _ = (sets (.map id entries)).map fun s =>
            (s.1, .ofList (elements s.2 ++ [.str (Path.text (path :: s.1))])) := by
          rw [hnode.sets_map, List.map_flatMap]
          simp only [List.map_map, Function.comp_def]

/-! ## Merges as they are listed -/

/-- The text that a merged path gets at a listed path: in a map it is prolonged by it. -/
def prolonged (node : Value) (path listed : String) : String :=
  if node.isMap then path ++ "." ++ listed else path

/-- Lists in a map are at paths with segments, a list on its own is at the empty path. -/
theorem Ownless.prolonged_text (h : Ownless node) {s : Path × Value} (hs : s ∈ sets node)
    (path : String) : prolonged node path s.1.text = Path.text (path :: s.1) := by
  cases h with
  | list =>
    obtain rfl := List.mem_singleton.mp hs
    simp [prolonged, Value.isMap, Path.text]
  | @map id entries keys own below =>
    have hnode : Ownless (.map id entries) := .map keys own below
    rw [hnode.sets_map] at hs
    obtain ⟨e, -, hs⟩ := List.mem_flatMap.mp hs
    obtain ⟨s, -, rfl⟩ := List.mem_map.mp hs
    exact (Path.text_cons_cons path e.1 s.1).symm

theorem prolonged_merge (h : Ownless node) (path : String) :
    prolonged (merge path node) = prolonged node := by
  funext other listed
  rw [prolonged, prolonged, h.isMap_merge]

/-- One path is merged into every edge set, prolonged by the way to it. -/
theorem edgeSets_merge_one (h : Ownless node) (path : String) :
    edgeSets [] (merge path node) = (edgeSets [] node).map fun s =>
      (s.1, .ofList (elements s.2 ++ [.str (prolonged node path s.1)])) := by
  rw [edgeSets_eq, edgeSets_eq, sets_merge h, List.map_map, List.map_map]
  refine List.map_congr_left fun ⟨below, set⟩ hs => ?_
  simp only [Function.comp_apply, List.nil_append, h.prolonged_text hs path]

/-- Merges one after the other append their texts to each list, in their order. -/
theorem edgeSets_merges : ∀ {node : Value} (paths : List String), Ownless node →
    Ownless (paths.foldl (fun m path => merge path m) node) ∧
    (edgeSets [] (paths.foldl (fun m path => merge path m) node)).map
        (fun s => (s.1, elements s.2)) =
      (edgeSets [] node).map fun s =>
        (s.1, elements s.2 ++ paths.map fun path => .str (prolonged node path s.1))
  | node, [], h => ⟨h, by simp⟩
  | node, path :: paths, h => by
    obtain ⟨hmerged, hsets⟩ := edgeSets_merges paths (h.merge path)
    refine ⟨hmerged, hsets.trans ?_⟩
    rw [edgeSets_merge_one h, prolonged_merge h, List.map_map]
    simp only [Function.comp_def, Value.ofList, elements, List.map_cons, List.append_assoc,
      List.singleton_append]

/-- A merge appends to every list the path, prolonged in a map by the path at which the list stands,
and keeps these paths in their order. Merges one after the other append one text each. -/
theorem edgeSets_merge (h : Ownless node) :
    (∀ path, edgeSets [] (merge path node) = (edgeSets [] node).map fun s =>
      (s.1, .ofList (elements s.2 ++ [.str (prolonged node path s.1)]))) ∧
    ∀ paths : List String, Ownless (paths.foldl (fun m path => merge path m) node) ∧
      (edgeSets [] (paths.foldl (fun m path => merge path m) node)).map
          (fun s => (s.1, elements s.2)) =
        (edgeSets [] node).map fun s =>
          (s.1, elements s.2 ++ paths.map fun path => .str (prolonged node path s.1)) :=
  ⟨edgeSets_merge_one h, fun paths => edgeSets_merges paths h⟩

/-- A list of edges beside a map with an empty one and another. -/
def priceEdges : Value := .ofEntries [("tax", .ofTexts ["rate"]),
  ("total", .ofEntries [("net", .ofTexts []), ("gross", .ofTexts ["net.gross", "tax.gross"])])]

theorem ownless_priceEdges : Ownless priceEdges := by
  have hlist : ∀ texts, Ownless (.ofTexts texts) := fun texts => .list fun _ _ => trivial
  refine ownless_map_iff.mpr (List.forall_mem_cons.mpr ⟨⟨by decide, hlist _⟩,
    List.forall_mem_singleton.mpr ⟨by decide, ?_⟩⟩)
  exact ownless_map_iff.mpr (List.forall_mem_cons.mpr ⟨⟨by decide, hlist _⟩,
    List.forall_mem_singleton.mpr ⟨by decide, hlist _⟩⟩)

theorem edgeSets_merge_of_priceEdges : Ownless priceEdges ∧
    (edgeSets [] (merge "q" (merge "p" priceEdges))).map (fun s => (s.1, elements s.2)) =
      [("tax", ["rate", "p.tax", "q.tax"].map .str),
        ("total.net", ["p.total.net", "q.total.net"].map .str),
        ("total.gross",
          ["net.gross", "tax.gross", "p.total.gross", "q.total.gross"].map .str)] :=
  ⟨ownless_priceEdges, ((edgeSets_merge ownless_priceEdges).2 ["p", "q"]).2⟩

end EdgeMap

end RuleTree
