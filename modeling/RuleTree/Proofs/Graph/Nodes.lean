import RuleTree.Proofs.Graph.Build
import RuleTree.Proofs.Outcome
import RuleTree.Proofs.Path.Wildcard
import RuleTree.Graph.Propagation
/-!
# Nodes of an edge map

Whatever the keys of a rule tree are, its edge maps are made of lists of texts and of maps.
`EdgeMap.Node` says so, with a property that all keys have and one that all edges have.
Insertions keep it (`EdgeMap.node_insert`), and a look-up gives the properties back for what
it finds : a node, or an edge out of a list if the path goes on from there by a position
(`EdgeMap.of_read`, `EdgeMap.of_mem_edgesIn_of_read`).
-/

namespace RuleTree.EdgeMap

/-! ## Nodes -/

/-- A list of edges, or a map of nodes. The edges and the keys have given properties, and
unless own edges may be nested, no map stands under the key of a node's own edges. -/
inductive Node (key edge : String → Prop) (nested : Prop) : Value → Prop
  | list {id : Ident} {texts : List String} (edges : ∀ t ∈ texts, edge t) :
    Node key edge nested (.list id (texts.map .str))
  | map {id : Ident} {entries : List (String × Value)}
    (keys : ∀ k v, (k, v) ∈ entries → key k)
    (own : ∀ v, (ownKey, v) ∈ entries → v.isMap = true → nested)
    (below : ∀ k v, (k, v) ∈ entries → Node key edge nested v) :
    Node key edge nested (.map id entries)

variable {key edge : String → Prop} {nested : Prop}

namespace Node

theorem empty (id : Ident) : Node key edge nested (.map id []) :=
  .map (by simp) (by simp) (by simp)

variable {id : Ident} {entries : List (String × Value)}

/-- A node that is a map has keys with the property, and nodes under them. -/
theorem parts (h : Node key edge nested (.map id entries)) :
    (∀ k v, (k, v) ∈ entries → key k) ∧
      (∀ v, (ownKey, v) ∈ entries → v.isMap = true → nested) ∧
        ∀ k v, (k, v) ∈ entries → Node key edge nested v := by
  cases h with
  | map keys own below => exact ⟨keys, own, below⟩

theorem get? (h : Node key edge nested (.map id entries)) {k : String} {v : Value}
    (hv : Entries.get? k entries = some v) : Node key edge nested v :=
  h.parts.2.2 k v (Entries.mem_of_get? hv)

/-- A node bound to a key, whatever was bound to it. -/
theorem put (h : Node key edge nested (.map id entries)) {k : String} (hk : key k) {v : Value}
    (hv : Node key edge nested v) (hown : k = ownKey → v.isMap = true → nested) (id' : Ident) :
    Node key edge nested (.map id' (Entries.put k v entries)) := by
  obtain ⟨keys, own, below⟩ := h.parts
  refine .map (fun k' w hm => ?_) (fun w hm => ?_) (fun k' w hm => ?_)
  · rcases Entries.mem_put hm with ⟨rfl, -⟩ | hm
    · exact hk
    · exact keys k' w hm
  · rcases Entries.mem_put hm with ⟨he, rfl⟩ | hm
    · exact hown he.symm
    · exact own w hm
  · rcases Entries.mem_put hm with ⟨-, rfl⟩ | hm
    · exact hv
    · exact below k' w hm

end Node

/-! ## Insertions -/

/-- Edges that are prolonged by a key when they are merged into nested own edges keep the
property of edges. -/
def Prolongs (key edge : String → Prop) (nested : Prop) : Prop :=
  nested → ∀ t k, edge t → key k → edge (t ++ "." ++ k)

theorem Node.isMap_merge {v : Value} (h : Node key edge nested v) (t : String) :
    (merge t v).isMap = v.isMap := by
  cases h <;> rfl

theorem node_ofTexts {t : String} (ht : edge t) : Node key edge nested (.ofTexts [t]) :=
  @Node.list key edge nested _ [t] (by simpa using ht)

/-- An edge merged into a list is one more edge. -/
theorem node_merge_list (id : Ident) {texts : List String} {t : String}
    (h : ∀ t ∈ texts, edge t) (ht : edge t) :
    Node key edge nested (merge t (.list id (texts.map .str))) := by
  have hmerge : merge t (.list id (texts.map .str)) = .ofList ((texts ++ [t]).map .str) := by
    simp [merge]
  rw [hmerge]
  refine .list fun t' ht' => ?_
  rcases List.mem_append.mp ht' with hm | hm
  · exact h t' hm
  · exact List.mem_singleton.mp hm ▸ ht

/-- An edge merged into nested own edges, prolonged on the way. -/
theorem Node.merge {v : Value} (h : Node key edge nested v) (hn : nested)
    (hprolongs : Prolongs key edge nested) : ∀ {t : String}, edge t →
      Node key edge nested (merge t v) := by
  induction h with
  | list edges => exact fun ht => node_merge_list _ edges ht
  | @map id entries keys _ _ ih =>
    intro t ht
    refine .map (fun k w hm => ?_) (fun _ _ _ => hn) (fun k w hm => ?_)
    · obtain ⟨v, hv, -⟩ := mem_mergeEntries hm
      exact keys k v hv
    · obtain ⟨v, hv, rfl⟩ := mem_mergeEntries hm
      exact ih k v hv (hprolongs hn t k ht (keys k v hv))

variable {t : String}

/-- An edge merged into own edges, nested or not. -/
theorem Node.merge_own {v : Value} (h : Node key edge nested v) (hown : v.isMap = true → nested)
    (hprolongs : Prolongs key edge nested) (ht : edge t) :
    Node key edge nested (EdgeMap.merge t v) := by
  cases h with
  | list edges => exact node_merge_list _ edges ht
  | map keys own below => exact (Node.map keys own below).merge (hown rfl) hprolongs ht

/-- An edge added where a path ends. -/
theorem node_addHere (hown : key ownKey) (hprolongs : Prolongs key edge nested) (ht : edge t)
    {node : Option Value} (h : ∀ v, node = some v → Node key edge nested v) :
    Node key edge nested (addHere t node) := by
  cases node with
  | none => exact node_ofTexts ht
  | some v =>
    cases h v rfl with
    | @list id texts edges => exact node_merge_list id edges ht
    | @map id entries keys own below =>
      have hmap := h _ rfl
      cases hv : Entries.get? ownKey entries with
      | none =>
        rw [addHere, hv]
        exact hmap.put hown (node_ofTexts ht) (fun _ hm => (Bool.false_ne_true hm).elim) id
      | some v =>
        have hnode := hmap.get? hv
        have hnested := own v (Entries.mem_of_get? hv)
        rw [addHere, hv, Option.getD_some]
        refine hmap.put hown (hnode.merge_own hnested hprolongs ht) (fun _ hm => ?_) id
        rw [hnode.isMap_merge] at hm
        exact hnested hm

/-- What is added where a path ends is no map if nothing was there or a list was. -/
theorem isMap_addHere {node : Option Value} (h : ∀ v, node = some v → Node key edge nested v)
    (hm : (addHere t node).isMap = true) : ∃ v, node = some v ∧ v.isMap = true := by
  cases node with
  | none => cases hm
  | some v =>
    refine ⟨v, rfl, ?_⟩
    cases h v rfl with
    | list => exact hm
    | map => rfl

/-- The map that a node becomes is a node again. -/
theorem node_opened (hown : key ownKey) {node : Option Value}
    (h : ∀ v, node = some v → Node key edge nested v) :
    Node key edge nested (.ofEntries (opened node)) := by
  cases node with
  | none => exact .empty _
  | some v =>
    cases h v rfl with
    | list edges =>
      exact (Node.empty (.made 0)).put hown (.list edges)
        (fun _ hm => (Bool.false_ne_true hm).elim) _
    | map keys own below => exact .map keys own below

/-- An insertion keeps the properties of keys and edges. Own edges are nested only if a
segment that is not the last one is empty. -/
theorem node_insert (hown : key ownKey) (hprolongs : Prolongs key edge nested) (ht : edge t) :
    ∀ {path : Path} {id : Ident} {entries : List (String × Value)}, (∀ s ∈ path, key s) →
      (ownKey ∈ path.dropLast → nested) → Node key edge nested (.map id entries) →
        Node key edge nested (.ofEntries (insert t path entries))
  | [], _, _, _, _, h => .map h.parts.1 h.parts.2.1 h.parts.2.2
  | [last], _, entries, hp, _, h => by
    refine h.put (hp last (by simp)) (node_addHere hown hprolongs ht fun v hv => h.get? hv)
      (fun he hm => ?_) _
    obtain ⟨v, hv, hmap⟩ := isMap_addHere (fun v hv => h.get? hv) hm
    exact h.parts.2.1 v (he ▸ Entries.mem_of_get? hv) hmap
  | first :: second :: rest, _, entries, hp, hn, h => by
    have hinner := node_opened hown fun v (hv : Entries.get? first entries = some v) => h.get? hv
    have hrest : ownKey ∈ (second :: rest).dropLast → nested :=
      fun hm => hn (List.mem_cons_of_mem _ hm)
    refine h.put (hp first (by simp)) ?_ (fun he _ => hn (by simp [he])) _
    exact node_insert hown hprolongs ht (fun s hs => hp s (List.mem_cons_of_mem _ hs)) hrest hinner

/-- A map built by insertions has the properties of the paths and edges inserted. -/
theorem node_build (hown : key ownKey) (hprolongs : Prolongs key edge nested)
    {pairs : List (Path × String)} (hkeys : ∀ e ∈ pairs, ∀ s ∈ e.1, key s)
    (hn : ∀ e ∈ pairs, ownKey ∈ e.1.dropLast → nested) (hedges : ∀ e ∈ pairs, edge e.2) :
    Node key edge nested (.ofEntries (build pairs)) := by
  refine List.foldlRecOn (motive := fun m => Node key edge nested (.ofEntries m)) pairs _
    (Node.empty _) fun m hm e he => ?_
  exact node_insert hown hprolongs (hedges e he) (hkeys e he) (hn e he) hm

/-- Entries put over a map bring their own properties. -/
theorem node_putAll {entries : List (String × Value)}
    (h : Node key edge nested (.ofEntries entries)) {m : List (String × Value)}
    (hm : Node key edge nested (.ofEntries m)) :
    Node key edge nested (.ofEntries (entries.foldl (fun m (k, v) => Entries.put k v m) m)) := by
  obtain ⟨keys, own, below⟩ := h.parts
  refine List.foldlRecOn (motive := fun m => Node key edge nested (.ofEntries m)) entries _ hm
    fun m hm e he => ?_
  exact hm.put (keys e.1 e.2 he) (below e.1 e.2 he) (fun hk => own e.2 (hk ▸ he)) _

/-! ## Reading -/

/-- A child of a list of texts is one of them, at the position that the segment writes. -/
theorem of_child?_texts {id : Ident} {texts : List String} {segment : String} {inner : Value}
    (hc : (Value.list id (texts.map .str)).child? segment = .ok (some inner)) :
    ∃ t n, inner = .str t ∧ t ∈ texts ∧ Text.readIndex segment.toList = .position n := by
  obtain ⟨n, hindex, hget⟩ := Value.child?_list hc
  rw [List.getElem?_map] at hget
  obtain ⟨t, ht, rfl⟩ := Option.map_eq_some_iff.mp hget
  exact ⟨t, n, rfl, List.mem_of_getElem? ht, hindex⟩

/-- A child of a node is a node, or an edge at the position that the segment writes. -/
theorem Node.child? {v inner : Value} (h : Node key edge nested v) {segment : String}
    (hc : v.child? segment = .ok (some inner)) : Node key edge nested inner ∨
      ∃ t n, inner = .str t ∧ edge t ∧ Text.readIndex segment.toList = .position n ∧
        ∃ id items, v = .list id items := by
  cases h with
  | @list id texts edges =>
    obtain ⟨t, n, rfl, ht, hn⟩ := of_child?_texts hc
    exact Or.inr ⟨t, n, rfl, edges t ht, hn, id, _, rfl⟩
  | map keys own below =>
    exact Or.inl (below segment inner (Entries.mem_of_get? (Except.ok.inj hc)))

theorem Node.isScalar {v : Value} (h : Node key edge nested v) : v.isScalar = false := by
  cases h <;> rfl

/-- Reading goes on below a child, or finds nothing if there is none. -/
theorem of_read_cons {v found : Value} {segment : String} {rest : Path}
    (hv : v.isScalar = false) (hs : segment ≠ Path.wildcard)
    (h : v.read (segment :: rest) true = .ok found) : found = .null ∨
      ∃ inner, v.child? segment = .ok (some inner) ∧ inner.read rest true = .ok found := by
  rw [Value.read_cons hv hs] at h
  obtain ⟨child, hc, h⟩ := exists_of_bind_eq_ok h
  cases child with
  | none => exact Or.inl (Except.ok.inj h).symm
  | some inner => exact Or.inr ⟨inner, hc, h⟩

theorem read_cons_of_child {v inner : Value} {segment : String} (hv : v.isScalar = false)
    (hs : segment ≠ Path.wildcard) (hc : v.child? segment = .ok (some inner)) (rest : Path) :
    v.read (segment :: rest) true = inner.read rest true := by
  rw [Value.read_cons hv hs, hc]
  rfl

theorem read_scalar {v : Value} (hv : v.isScalar = true) {segment : String} {rest : Path}
    (hs : segment ≠ Path.wildcard) : v.read (segment :: rest) true = .ok .null := by
  rw [Value.read_scalar_cons hv, if_neg (by simp [hs])]

/-- A path goes on from a list by a position. -/
def EntersList (v : Value) (path : Path) : Prop :=
  path.endsInPosition = true ∧ ∃ id items, v.read path.dropLast true = .ok (.list id items)

/-- A way that enters a list below a segment enters it. -/
theorem EntersList.cons {v inner : Value} {segment : String} {path : Path}
    (hv : v.isScalar = false) (hs : segment ≠ Path.wildcard)
    (hc : v.child? segment = .ok (some inner)) (h : EntersList inner path) :
    EntersList v (segment :: path) := by
  obtain ⟨hlast, id, items, hread⟩ := h
  refine ⟨Path.endsInPosition_cons hlast segment, id, items, ?_⟩
  cases path with
  | nil => cases hlast
  | cons next rest =>
    rw [List.dropLast_cons_of_ne_nil (List.cons_ne_nil _ _), read_cons_of_child hv hs hc, hread]

/-- Reading below a node finds nothing, a node, or an edge out of a list. -/
theorem of_read : ∀ {path : Path} {v found : Value}, Node key edge nested v →
    (∀ s ∈ path, s ≠ Path.wildcard) → v.read path true = .ok found →
      found = .null ∨ Node key edge nested found ∨
        ∃ t, found = .str t ∧ edge t ∧ EntersList v path
  | [], v, found, h, _, hread => by
    obtain rfl := Except.ok.inj hread
    exact Or.inr (Or.inl h)
  | segment :: rest, v, found, h, hpath, hread => by
    have hs := hpath segment (by simp)
    rcases of_read_cons h.isScalar hs hread with rfl | ⟨inner, hc, hread⟩
    · exact Or.inl rfl
    · rcases h.child? hc with hnode | ⟨t, n, rfl, ht, hn, hlist⟩
      · have hrest : ∀ s ∈ rest, s ≠ Path.wildcard :=
          fun s hm => hpath s (List.mem_cons_of_mem _ hm)
        rcases of_read hnode hrest hread with hnull | hfound | ⟨t, hstr, ht, henters⟩
        · exact Or.inl hnull
        · exact Or.inr (Or.inl hfound)
        · exact Or.inr (Or.inr ⟨t, hstr, ht, henters.cons h.isScalar hs hc⟩)
      · cases rest with
        | nil =>
          obtain rfl := Except.ok.inj hread
          obtain ⟨id, items, rfl⟩ := hlist
          exact Or.inr (Or.inr ⟨t, rfl, ht, Path.endsInPosition_singleton hn, id, items, rfl⟩)
        | cons next rest =>
          -- an edge is a text, and nothing is found below a text
          rw [read_scalar rfl (hpath next (by simp))] at hread
          exact Or.inl (Except.ok.inj hread).symm

/-- The edge sets of a node are nodes. -/
theorem Node.of_mem_sets {v : Value} (h : Node key edge nested v) : ∀ {path : Path} {set : Value},
    (path, set) ∈ sets v → Node key edge nested set ∧ (set.isMap = true → nested) := by
  induction h with
  | @list id texts edges =>
    intro path set hm
    obtain ⟨-, rfl⟩ : path = [] ∧ set = .list id (texts.map .str) := by simpa [sets] using hm
    exact ⟨.list edges, fun hmap => (Bool.false_ne_true hmap).elim⟩
  | map keys own below ih =>
    intro path set hm
    obtain ⟨k, v, he, hm⟩ := mem_sets_map.mp hm
    rcases mem_setsUnder.mp hm with ⟨rfl, -, rfl⟩ | ⟨-, rest, -, hin⟩
    · exact ⟨below _ _ he, own _ he⟩
    · exact ih k v he hin

/-- The elements of a node are its edges, or its keys. -/
theorem Node.of_mem_elements {v x : Value} (h : Node key edge nested v) (hx : x ∈ elements v) :
    ∃ t, x = .str t ∧ (edge t ∨ v.isMap = true ∧ key t) := by
  cases h with
  | list edges =>
    obtain ⟨t, ht, rfl⟩ := List.mem_map.mp hx
    exact ⟨t, rfl, Or.inl (edges t ht)⟩
  | map keys own below =>
    obtain ⟨k, hk, rfl⟩ := List.mem_map.mp hx
    obtain ⟨⟨k, v⟩, he, rfl⟩ := List.mem_map.mp hk
    exact ⟨k, rfl, Or.inr ⟨rfl, keys k v he⟩⟩

/-- The edges in a node are edges, or keys if own edges are nested. -/
theorem Node.of_mem_edgesIn {v x : Value} (h : Node key edge nested v)
    (hx : x ∈ Graph.edgesIn v) : ∃ t, x = .str t ∧ (edge t ∨ nested ∧ key t) := by
  cases h with
  | list edges =>
    obtain ⟨t, ht, rfl⟩ := List.mem_map.mp hx
    exact ⟨t, rfl, Or.inl (edges t ht)⟩
  | @map id entries keys own below =>
    have hnode : Node key edge nested (.map id entries) := .map keys own below
    obtain ⟨⟨_, set⟩, hset, hx⟩ := List.mem_flatMap.mp hx
    rw [edgeSets_eq] at hset
    obtain ⟨⟨path, set⟩, hm, heq⟩ := List.mem_map.mp hset
    obtain ⟨-, rfl⟩ := Prod.mk.inj heq
    obtain ⟨hin, hnested⟩ := hnode.of_mem_sets hm
    obtain ⟨t, rfl, ht⟩ := hin.of_mem_elements hx
    exact ⟨t, rfl, ht.imp_right (And.imp_left hnested)⟩

/-- A text of one character of an edge. -/
def Letter (edge : String → Prop) (t : String) : Prop :=
  ∃ word c, edge word ∧ c ∈ word.toList ∧ t = c.toString

theorem letter_of_mem_edgesIn {word : String} {x : Value} (h : edge word)
    (hx : x ∈ Graph.edgesIn (.str word)) : ∃ t, x = .str t ∧ Letter edge t := by
  obtain ⟨c, hc, rfl⟩ := List.mem_map.mp hx
  exact ⟨c.toString, rfl, word, c, h, hc, rfl⟩

/-- A look-up below a node finds edges, keys if own edges are nested, and single characters
of edges if the path goes on from a list. -/
theorem of_mem_edgesIn_of_read {path : Path} {v found x : Value} (h : Node key edge nested v)
    (hpath : ∀ s ∈ path, s ≠ Path.wildcard) (hread : v.read path true = .ok found)
    (hx : x ∈ Graph.edgesIn found) : ∃ t, x = .str t ∧
      (edge t ∨ nested ∧ key t ∨ EntersList v path ∧ Letter edge t) := by
  rcases of_read h hpath hread with rfl | hnode | ⟨word, rfl, hword, henters⟩
  · cases hx
  · obtain ⟨t, rfl, ht⟩ := hnode.of_mem_edgesIn hx
    exact ⟨t, rfl, ht.imp_right Or.inl⟩
  · obtain ⟨t, rfl, ht⟩ := letter_of_mem_edgesIn hword hx
    exact ⟨t, rfl, Or.inr (Or.inr ⟨henters, ht⟩)⟩

/-! ## Wildcards at the root -/

/-- The leaves of a node are its edges. -/
theorem Node.of_mem_leaves {v : Value} (h : Node key edge nested v) : ∀ {x : Value},
    x ∈ v.leaves → ∃ t, x = .str t ∧ edge t := by
  induction h with
  | list edges =>
    intro x hx
    rw [Value.leaves, Value.collected] at hx
    obtain ⟨item, hitem, hx⟩ := List.mem_flatMap.mp (List.mem_filter.mp hx).1
    obtain ⟨t, ht, rfl⟩ := List.mem_map.mp hitem
    exact ⟨t, List.mem_singleton.mp hx, edges t ht⟩
  | map keys own below ih =>
    intro x hx
    obtain ⟨k, v, he, hx⟩ := Value.mem_leaves_map hx
    exact ih k v he hx

/-- A look-up at a single segment, the wildcard or not, finds edges, or keys if own edges are
nested. -/
theorem of_mem_edgesIn_of_read_singleton {segment : String} {entries : List (String × Value)}
    {found x : Value} (h : Node key edge nested (.ofEntries entries))
    (hread : (Value.ofEntries entries).read [segment] true = .ok found)
    (hx : x ∈ Graph.edgesIn found) : ∃ t, x = .str t ∧ (edge t ∨ nested ∧ key t) := by
  by_cases hs : segment = Path.wildcard
  · have hleaves : found = .ofList (Value.ofEntries entries).leaves := by
      rw [Value.read, if_neg (by simp [h.isScalar]), if_pos hs] at hread
      exact (Except.ok.inj hread).symm
    subst hleaves
    obtain ⟨t, rfl, ht⟩ := h.of_mem_leaves hx
    exact ⟨t, rfl, Or.inl ht⟩
  · have hentry : found = .null ∨ Node key edge nested found := by
      rcases of_read_cons (Node.isScalar h) hs hread with hnull | ⟨inner, hc, hread⟩
      · exact Or.inl hnull
      · obtain rfl := Except.ok.inj hread
        exact Or.inr (h.get? (Except.ok.inj hc))
    rcases hentry with rfl | hnode
    · cases hx
    · exact hnode.of_mem_edgesIn hx

end RuleTree.EdgeMap
