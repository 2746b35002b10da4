import RuleTree.Proofs.Graph.Readers
/-!
# Where edges come from

A look-up finds recorded edges, unless it goes on from an edge list by a position and finds the
characters of an edge. In an edge map whose own edges are nowhere nested, the lists stand at the
paths that edges are kept under, or one empty segment further on (`EdgeMap.Placed`). So look-ups
at other paths, and walks that come to no such path, list recorded edges only
(`Engine.subset_recorded`).
-/

namespace RuleTree

/-! ## Where lists stand -/

namespace EdgeMap

/-- Every list below a node stands at a path with a property. -/
inductive Placed : (Path → Prop) → Value → Prop
  | list {place : Path → Prop} {id : Ident} {items : List Value} (here : place []) :
    Placed place (.list id items)
  | map {place : Path → Prop} {id : Ident} {entries : List (String × Value)}
    (below : ∀ k v, (k, v) ∈ entries → Placed (fun path => place (k :: path)) v) :
    Placed place (.map id entries)

variable {edge : String → Prop} {place : Path → Prop} {id : Ident}
  {entries : List (String × Value)} {t : String}

namespace Placed

theorem empty (id : Ident) : Placed place (.map id []) := .map (by simp)

theorem of_mem (h : Placed place (.map id entries)) {k : String} {v : Value}
    (he : (k, v) ∈ entries) : Placed (fun path => place (k :: path)) v := by
  cases h with
  | map below => exact below k v he

/-- A node under a key has its place behind the key. -/
theorem put (h : Placed place (.map id entries)) {k : String} {v : Value}
    (hv : Placed (fun path => place (k :: path)) v) (id' : Ident) :
    Placed place (.map id' (Entries.put k v entries)) := by
  refine .map fun k' w hm => ?_
  rcases Entries.mem_put hm with ⟨rfl, rfl⟩ | hm
  · exact hv
  · exact h.of_mem hm

/-- A list that is read stands at its path. -/
theorem of_read {items : List Value} : ∀ {path : Path} {place : Path → Prop} {v : Value},
    Placed place v → Node (fun _ => True) edge False v → (∀ s ∈ path, s ≠ Path.wildcard) →
      v.read path true = .ok (.list id items) → place path
  | [], place, v, h, _, _, hread => by
    obtain rfl := Except.ok.inj hread
    cases h with
    | list here => exact here
  | segment :: rest, place, v, h, hnode, hpath, hread => by
    have hs := hpath segment (by simp)
    rcases of_read_cons hnode.isScalar hs hread with hnull | ⟨inner, hc, hinner⟩
    · cases hnull
    · cases hnode with
      | list =>
        -- an edge is no list, and nothing is found below it
        obtain ⟨t, -, rfl, -⟩ := of_child?_texts hc
        cases rest with
        | nil => cases hinner
        | cons next rest =>
          rw [read_scalar rfl (hpath next (by simp))] at hinner
          cases hinner
      | map _ _ below =>
        have he := Entries.mem_of_get? (Except.ok.inj hc)
        have hplace := of_read (h.of_mem he) (below _ _ he)
          (fun s hm => hpath s (List.mem_cons_of_mem _ hm)) hinner
        exact hplace

/-- A node that is no map stands where it may. -/
theorem of_not_isMap {v : Value} (hnode : Node (fun _ => True) edge False v)
    (hv : v.isMap = false) (here : place []) : Placed place v := by
  cases hnode with
  | list => exact .list here
  | map => cases hv

end Placed

/-! ## Insertions -/

variable {node : Option Value}

/-- What stands where an edge is added, or under the key of own edges there. -/
theorem placed_addHere (ht : edge t)
    (hnode : ∀ v, node = some v → Node (fun _ => True) edge False v)
    (h : ∀ v, node = some v → Placed place v) (here : place []) (hown : place [ownKey]) :
    Placed place (addHere t node) := by
  have hprolongs : Prolongs (fun _ => True) edge False := fun hn => hn.elim
  cases node with
  | none => exact .list here
  | some v =>
    cases hnode v rfl with
    | list => exact .list here
    | @map id entries keys own below =>
      rw [addHere]
      refine (h _ rfl).put ?_ _
      cases hv : Entries.get? ownKey entries with
      | none => exact .list hown
      | some v =>
        have he := Entries.mem_of_get? hv
        have hmap : v.isMap = false := Bool.eq_false_iff.mpr fun hm => own v he hm
        rw [Option.getD_some]
        refine .of_not_isMap ((below _ v he).merge_own (own v he) hprolongs ht) ?_ hown
        rw [(below _ v he).isMap_merge, hmap]

/-- The map that a node becomes has its edges in the same places. -/
theorem placed_opened (hnode : ∀ v, node = some v → Node (fun _ => True) edge False v)
    (h : ∀ v, node = some v → Placed place v) (hown : place [] → place [ownKey]) :
    Placed place (.ofEntries (opened node)) := by
  cases node with
  | none => exact .empty _
  | some v =>
    have hv := h v rfl
    cases hnode v rfl with
    | list =>
      cases hv with
      | list here => exact (Placed.empty (.made 0)).put (.list (hown here)) _
    | map =>
      cases hv with
      | map below => exact .map below

/-- An insertion puts a list at its path, or one empty segment further on. -/
theorem placed_insert (ht : edge t) : ∀ {path : Path} {place : Path → Prop} {id : Ident}
    {entries : List (String × Value)}, ownKey ∉ path.dropLast → place path →
      place (path ++ [ownKey]) → (∀ q, ownKey ∉ q → place q → place (q ++ [ownKey])) →
        Node (fun _ => True) edge False (.map id entries) → Placed place (.map id entries) →
          Placed place (.ofEntries (insert t path entries))
  | [], _, _, _, _, _, _, _, _, h => .map fun _ _ he => h.of_mem he
  | [last], place, _, entries, _, here, hown, _, hnode, h => by
    refine h.put (placed_addHere ht (fun v hv => hnode.get? hv) (fun v hv => ?_) here hown) _
    exact h.of_mem (Entries.mem_of_get? hv)
  | first :: second :: rest, place, _, entries, hempty, here, hown, hopen, hnode, h => by
    rw [List.dropLast_cons_of_ne_nil (List.cons_ne_nil _ _), List.mem_cons, not_or] at hempty
    have hnodes : ∀ v, Entries.get? first entries = some v → Node (fun _ => True) edge False v :=
      fun v hv => hnode.get? hv
    -- a list that the path goes on through is moved under the key of own edges
    have hopen' : ∀ q, ownKey ∉ q → place (first :: q) → place (first :: (q ++ [ownKey])) :=
      fun q hq hplace => hopen (first :: q) (by simp [hempty.1, hq]) hplace
    have hinner : Placed (fun path => place (first :: path))
        (.ofEntries (opened (Entries.get? first entries))) :=
      placed_opened hnodes (fun v hv => h.of_mem (Entries.mem_of_get? hv)) (hopen' [] (by simp))
    have hnode' := node_opened trivial hnodes
    exact h.put (placed_insert ht hempty.2 here hown hopen' hnode' hinner) _

/-- One of some paths, or the path of its own edges. -/
def Holds (kept : List Path) (path : Path) : Prop :=
  ∃ key ∈ kept, path = key ∨ path = key ++ [ownKey]

instance (kept : List Path) (path : Path) : Decidable (Holds kept path) :=
  inferInstanceAs (Decidable (∃ key ∈ kept, _))

theorem Holds.append {kept : List Path} {path : Path} (hpath : ownKey ∉ path)
    (h : Holds kept path) : Holds kept (path ++ [ownKey]) := by
  obtain ⟨key, hkey, rfl | rfl⟩ := h
  · exact ⟨path, hkey, Or.inr rfl⟩
  · exact absurd (List.mem_append_right _ (List.mem_singleton_self _)) hpath

/-- The lists of a map built by insertions stand at the paths inserted. -/
theorem placed_build {pairs : List (Path × String)} {kept : List Path}
    (hkept : ∀ e ∈ pairs, e.1 ∈ kept) (hempty : ∀ e ∈ pairs, ownKey ∉ e.1.dropLast) :
    Placed (Holds kept) (.ofEntries (build pairs)) := by
  have hboth : Node (fun _ => True) (fun _ => True) False (.ofEntries (build pairs)) ∧
      Placed (Holds kept) (.ofEntries (build pairs)) := by
    refine List.foldlRecOn (motive := fun m => Node (fun _ => True) (fun _ => True) False
      (.ofEntries m) ∧ Placed (Holds kept) (.ofEntries m)) pairs _ ⟨.empty _, .empty _⟩ ?_
    rintro m ⟨hnode, hplaced⟩ e he
    refine ⟨node_insert trivial (fun hn => hn.elim) trivial (by simp) (hempty e he) hnode, ?_⟩
    refine placed_insert ?_ (hempty e he) ⟨e.1, hkept e he, Or.inl rfl⟩
      ⟨e.1, hkept e he, Or.inr rfl⟩ (fun _ => Holds.append) hnode hplaced
    trivial
  exact hboth.2

theorem placed_putAll (h : Placed place (.ofEntries entries)) {m : List (String × Value)}
    (hm : Placed place (.ofEntries m)) :
    Placed place (.ofEntries (entries.foldl (fun m (k, v) => Entries.put k v m) m)) := by
  refine List.foldlRecOn (motive := fun m => Placed place (.ofEntries m)) entries _ hm ?_
  exact fun m hm e he => hm.put (h.of_mem he) _

end EdgeMap

/-! ## Look-ups -/

/-- The paths that an edge is kept under in a direction. -/
def Edge.keys (e : Edge) : Direction → List Path
  | .forward => [e.reader]
  | .backward => [e.target]
  | .undirected => [e.reader, e.target]

namespace Edge

variable {direction : Direction}

theorem reader_mem_keys (hd : direction ≠ .backward) (e : Edge) : e.reader ∈ e.keys direction := by
  cases direction <;> simp [keys] at hd ⊢

theorem target_mem_keys (hd : direction ≠ .forward) (e : Edge) : e.target ∈ e.keys direction := by
  cases direction <;> simp [keys] at hd ⊢

end Edge

/-- A path goes on from where edges are kept by a position, so a look-up there finds the
characters of an edge. -/
def Rules.EntersEdge (es : List Edge) (direction : Direction) (path : Path) : Prop :=
  path.endsInPosition = true ∧ EdgeMap.Holds (es.flatMap (·.keys direction)) path.dropLast

instance (es : List Edge) (direction : Direction) (path : Path) :
    Decidable (Rules.EntersEdge es direction path) :=
  inferInstanceAs (Decidable (_ ∧ _))

namespace Graph

open EdgeMap RuleTree.Path Rules

variable {es : List Edge} {direction : Direction}

/-- The edges of a graph are at the places of its keys. -/
theorem placed_view (hempty : ∀ e ∈ es, "" ∉ e.reader.dropLast ∧ "" ∉ e.target.dropLast)
    (direction : Direction) : Placed (Holds (es.flatMap (·.keys direction)))
      ((ofEdges es).view direction) := by
  refine view_induction es (fun hd => ?_) (fun hd => ?_) fun h hm => placed_putAll h hm
  · apply placed_build <;> intro pair hpair <;> obtain ⟨e, he, rfl⟩ := List.mem_map.mp hpair
    · exact List.mem_flatMap.mpr ⟨e, he, e.reader_mem_keys hd⟩
    · exact (hempty e he).1
  · apply placed_build <;> intro pair hpair <;> obtain ⟨e, he, rfl⟩ := List.mem_map.mp hpair
    · exact List.mem_flatMap.mpr ⟨e, he, e.target_mem_keys hd⟩
    · exact (hempty e he).2

/-- A look-up that does not go into an edge finds recorded edges. -/
theorem exists_recorded_of_edges
    (hempty : ∀ e ∈ es, "" ∉ e.reader.dropLast ∧ "" ∉ e.target.dropLast) {path : Path}
    (hpath : ∀ s ∈ path, s ≠ wildcard) (henters : ¬ EntersEdge es direction path)
    {found : List Value} (h : (ofEdges es).edges path direction = .ok found) :
    ∃ texts : List String, found = texts.map .str ∧
      ∀ t ∈ texts, t ∈ es.flatMap (·.texts direction) := by
  obtain ⟨node, hread, rfl⟩ := edges_eq_ok h
  have hview : Node (fun _ => True) (· ∈ es.flatMap (·.texts direction)) False
      ((ofEdges es).view direction) :=
    node_view trivial (fun hn => hn.elim) direction (fun e he => ⟨by simp, (hempty e he).1⟩)
      (fun e he => ⟨by simp, (hempty e he).2⟩)
      fun e he t ht => List.mem_flatMap.mpr ⟨e, he, ht⟩
  refine exists_texts fun x hx => ?_
  obtain ⟨t, rfl, ht⟩ := of_mem_edgesIn_of_read hview hpath hread hx
  refine ⟨t, rfl, ?_⟩
  rcases ht with ht | ⟨hnested, -⟩ | ⟨⟨hlast, id, items, hlist⟩, -⟩
  · exact ht
  · exact hnested.elim
  · have hplace := (placed_view hempty direction).of_read hview
      (fun s hs => hpath s (List.dropLast_subset _ hs)) hlist
    exact absurd ⟨hlast, hplace⟩ henters

end Graph

/-! ## Propagation -/

namespace Engine

open RuleTree.Path Rules

variable {rules : Value} {settings : Settings} {e : Engine} {es : List Edge}
  {direction : Direction}

/-- Look-ups and propagation list recorded edges, as long as no path on the way goes into an
edge and no recorded path has an empty segment before its last one. -/
theorem subset_recorded (he : ofRules rules settings = .ok e) (hes : edges rules = .ok es)
    (hkeys : ∀ key ∈ groupKeys rules, Throughout (· ≠ wildcard) key)
    (hpaths : ∀ p ∈ askedPaths rules, Throughout (· ≠ wildcard) p)
    (hempty : ∀ edge ∈ es, "" ∉ edge.reader.dropLast ∧ "" ∉ edge.target.dropLast) :
    (∀ path : Path, wildcard ∉ path → ¬ EntersEdge es direction path →
      ∀ found, e.graph.edges path direction = .ok found →
        found ⊆ (es.flatMap (·.texts direction)).map .str) ∧
    ∀ p, Throughout (· ≠ wildcard) p → ¬ EntersEdge es direction (ofText p) →
      (∀ t ∈ es.flatMap (·.texts direction), ¬ EntersEdge es direction (ofText t)) →
      ∀ all, e.propagate (.str p) direction = .ok all →
        all ⊆ (es.flatMap (·.texts direction)).map .str := by
  obtain ⟨-, -, hg⟩ := ofRules_eq_ok he
  obtain ⟨es', hes', hgraph⟩ := Graph.exists_of_ofRules hg
  obtain rfl := Except.ok.inj (hes.symm.trans hes')
  have hsubset : ∀ {found : List Value}, (∃ texts : List String, found = texts.map .str ∧
      ∀ t ∈ texts, t ∈ es.flatMap (·.texts direction)) →
        found ⊆ (es.flatMap (·.texts direction)).map .str := by
    rintro found ⟨texts, rfl, htexts⟩
    exact List.map_subset _ htexts
  rw [hgraph]
  constructor
  · intro path hpath henters found hfound
    have hwild : ∀ s ∈ path, s ≠ wildcard := fun s hs heq => hpath (heq ▸ hs)
    exact hsubset (Graph.exists_recorded_of_edges hempty hwild henters hfound)
  · intro p hp henters htexts all hall
    have hfinds : (Graph.ofEdges es).Finds direction
        (fun t => Throughout (· ≠ wildcard) t ∧ ¬ EntersEdge es direction (ofText t))
        (· ∈ es.flatMap (·.texts direction)) :=
      fun u hu found hfound => Graph.exists_recorded_of_edges hempty hu.1 hu.2 hfound
    have hrecorded : ∀ t ∈ es.flatMap (·.texts direction),
        Throughout (· ≠ wildcard) t ∧ ¬ EntersEdge es direction (ofText t) := by
      intro t ht
      obtain ⟨edge, hedge, hin⟩ := List.mem_flatMap.mp ht
      have hconsists : Consists (· ≠ wildcard) rules := ⟨admissible_ne_wildcard, hkeys, hpaths⟩
      exact ⟨hconsists.throughout_texts hes hedge hin, htexts t ht⟩
    have hwalk : e.graph.propagate direction (.str p) = .ok all := of_mapError_eq_ok hall
    rw [hgraph] at hwalk
    exact hsubset (Graph.exists_texts_of_walk hfinds hrecorded ⟨hp, henters⟩ hwalk)

/-- A rule, and one in a list that reads it. -/
def netLines : Value := .ofEntries [
  ("total", .ofEntries [("var", .str "net")]),
  ("lines", .ofList [.ofEntries [("var", .str "total")]])]

/-- The closure of a path that a rule reads, which is read in a list in turn. -/
theorem subset_recorded_of_netLines : ∃ e es all, ofRules netLines .standard = .ok e ∧
    edges netLines = .ok es ∧ e.propagate (.str "net") .backward = .ok all ∧
    all = ["total", "lines.0"].map .str ∧ all ⊆ (es.flatMap (·.texts .backward)).map .str := by
  obtain ⟨e, he⟩ : ∃ e, ofRules netLines .standard = .ok e := ⟨_, rfl⟩
  obtain ⟨es, hes⟩ : ∃ es, edges netLines = .ok es := ⟨_, rfl⟩
  have hall : e.propagate (.str "net") .backward = .ok (["total", "lines.0"].map .str) := by
    obtain rfl := Except.ok.inj he
    rfl
  have hkeys : ∀ key ∈ groupKeys netLines, Throughout (· ≠ wildcard) key := by decide
  have hpaths : ∀ p ∈ askedPaths netLines, Throughout (· ≠ wildcard) p := by decide
  have hempty : ∀ edge ∈ es, "" ∉ edge.reader.dropLast ∧ "" ∉ edge.target.dropLast := by
    obtain rfl := Except.ok.inj hes
    decide
  have henters : ¬ EntersEdge es .backward (ofText "net") := by
    obtain rfl := Except.ok.inj hes
    decide
  have htexts : ∀ t ∈ es.flatMap (·.texts .backward), ¬ EntersEdge es .backward (ofText t) := by
    obtain rfl := Except.ok.inj hes
    decide
  exact ⟨e, es, _, he, hes, hall, rfl,
    (subset_recorded he hes hkeys hpaths hempty).2 "net" (by decide) henters htexts _ hall⟩

/-- A position after a rule path leads into its edges : the path that a rule in a list reads
is such a path, and the characters of what the rule there reads are listed. -/
theorem letters_of_netLines : ∃ e es, ofRules netLines .standard = .ok e ∧
    edges netLines = .ok es ∧ (∀ key ∈ groupKeys netLines, Throughout (· ≠ wildcard) key) ∧
    (∀ p ∈ askedPaths netLines, Throughout (· ≠ wildcard) p) ∧
    e.graph.edges (ofText "total.0") .forward = .ok (["n", "e", "t"].map .str) ∧
    e.propagate (.str "lines") .forward = .ok (["total.0", "n", "e", "t"].map .str) ∧
    "n" ∉ es.flatMap (·.texts .forward) :=
  ⟨_, _, rfl, rfl, by decide, by decide, rfl, rfl, by decide⟩

end Engine

end RuleTree
