import RuleTree.Graph.EdgeMap
import RuleTree.Proofs.Path.Written
import RuleTree.Proofs.Value.Keys
import Mathlib.Data.List.Nodup
/-!
# Edge sets of an edge map

`EdgeMap.set?` looks up the edge set that an edge map holds at exactly a path. An
insertion is told by it alone : the set at the path gets the edge, every other set stays
(`EdgeMap.set?_insert`), whatever node the path ended at or led through. Insertions make no key
twice (`EdgeMap.distinctKeys_insert`), so the edge sets listed are the ones that a look-up finds
(`EdgeMap.mem_sets_iff`), each path once (`EdgeMap.nodup_sets`).
-/

namespace RuleTree.EdgeMap

/-! ## The edge set at a path -/

/-- The edge set at exactly a path below a node. -/
def set? : Path → Value → Option Value
  | [], .list id items => some (.list id items)
  | [], .map _ entries => Entries.get? ownKey entries
  | segment :: rest, .map _ entries => (Entries.get? segment entries).bind (set? rest)
  | _, _ => none

theorem set?_map_cons (id : Ident) (segment : String) (rest : Path)
    (entries : List (String × Value)) :
    set? (segment :: rest) (.map id entries) = (Entries.get? segment entries).bind (set? rest) :=
  rfl

theorem set?_of_isScalar {v : Value} (h : v.isScalar = true) (path : Path) :
    set? path v = none := by
  cases v <;> cases path <;> first | rfl | cases h

/-- Opening a node to go on through it keeps its edge sets. -/
theorem set?_opened {path : Path} (h : ownKey ∉ path) (node : Option Value) :
    set? path (.ofEntries (opened node)) = node.bind (set? path) := by
  cases path with
  | nil =>
    match node with
    | none | some (.list ..) | some (.map ..) => rfl
    | some .null | some (.bool _) | some (.num _) | some (.str _) => rfl
  | cons segment rest =>
    have hne : ownKey ≠ segment := fun he => h (he ▸ List.mem_cons_self ..)
    match node with
    | none | some (.map ..) => rfl
    | some (.list ..) => simp [opened, Value.ofEntries, set?, Entries.get?, hne]
    | some .null | some (.bool _) | some (.num _) | some (.str _) => rfl

/-- An edge added where a path ends goes to the node's own edge set. -/
theorem set?_addHere_nil (edge : String) (node : Option Value) :
    set? [] (addHere edge node) =
      some (merge edge ((node.bind (set? [])).getD .null)) := by
  match node with
  | some (.map id entries) =>
    rw [addHere, set?, Entries.get?_put_self]
    rfl
  | none | some (.list ..) => rfl
  | some .null | some (.bool _) | some (.num _) | some (.str _) => rfl

/-- An edge added at a node leaves the sets below it as they are. -/
theorem set?_addHere_cons (edge : String) {segment : String} (h : segment ≠ ownKey)
    (rest : Path) (node : Option Value) :
    set? (segment :: rest) (addHere edge node) = node.bind (set? (segment :: rest)) := by
  match node with
  | some (.map id entries) =>
    rw [addHere, set?_map_cons, Entries.get?_put_of_ne h]
    rfl
  | none | some (.list ..) => rfl
  | some .null | some (.bool _) | some (.num _) | some (.str _) => rfl

/-- A node bound to a key holds the sets at the paths that start with the key. -/
theorem set?_put_cons (key : String) (v : Value) (entries : List (String × Value))
    (segment : String) (tail : Path) :
    set? (segment :: tail) (.ofEntries (Entries.put key v entries)) =
      if segment = key then set? tail v else set? (segment :: tail) (.ofEntries entries) := by
  rw [Value.ofEntries, set?_map_cons]
  by_cases hs : segment = key
  · rw [hs, Entries.get?_put_self, if_pos rfl]
    rfl
  · rw [Entries.get?_put_of_ne hs, if_neg hs]
    rfl

theorem set?_put_nil {key : String} (h : key ≠ ownKey) (v : Value)
    (entries : List (String × Value)) :
    set? [] (.ofEntries (Entries.put key v entries)) = set? [] (.ofEntries entries) := by
  rw [Value.ofEntries, set?, Entries.get?_put_of_ne h.symm]
  rfl

/-- An insertion at a path that goes on is one in the map below its first segment. -/
theorem insert_cons_cons (edge first second : String) (rest : Path)
    (entries : List (String × Value)) :
    insert edge (first :: second :: rest) entries =
      Entries.put first (.ofEntries (insert edge (second :: rest)
        (opened (Entries.get? first entries)))) entries :=
  rfl

/-- An insertion adds the edge to the set at its path and keeps every other set. -/
theorem set?_insert (edge : String) : ∀ {path other : Path} (entries : List (String × Value)),
    path ≠ [] → ownKey ∉ path → ownKey ∉ other →
      set? other (.ofEntries (insert edge path entries)) =
        if other = path then some (merge edge ((set? path (.ofEntries entries)).getD .null))
        else set? other (.ofEntries entries)
  | [], _, _, h, _, _ => absurd rfl h
  | [last], [], entries, _, hp, _ => set?_put_nil (by simpa [eq_comm] using hp) _ entries
  | first :: second :: rest, [], entries, _, hp, _ =>
    set?_put_nil (fun he => hp (he ▸ List.mem_cons_self ..)) _ entries
  | [last], segment :: tail, entries, _, _, ho => by
    rw [insert, set?_put_cons]
    by_cases hs : segment = last
    · subst hs
      cases tail with
      | nil =>
        rw [if_pos rfl, if_pos rfl, set?_addHere_nil]
        rfl
      | cons next tail =>
        have hnext : next ≠ ownKey := fun he => ho (by simp [he])
        rw [if_pos rfl, if_neg (by simp), set?_addHere_cons edge hnext]
        rfl
    · rw [if_neg hs, if_neg (by simp [hs])]
  | first :: second :: rest, segment :: tail, entries, _, hp, ho => by
    rw [insert_cons_cons, set?_put_cons]
    by_cases hs : segment = first
    · subst hs
      have hp' : ownKey ∉ second :: rest := fun hm => hp (List.mem_cons_of_mem _ hm)
      have ho' : ownKey ∉ tail := fun hm => ho (List.mem_cons_of_mem _ hm)
      rw [if_pos rfl, set?_insert edge _ (List.cons_ne_nil _ _) hp' ho', set?_opened hp',
        set?_opened ho']
      simp only [List.cons.injEq, true_and]
      rfl
    · rw [if_neg hs, if_neg (by simp [hs])]

/-! ## Distinct keys -/

theorem keys_mergeEntries (edge : String) : ∀ entries : List (String × Value),
    Entries.keys (mergeEntries edge entries) = Entries.keys entries
  | [] => rfl
  | (key, _) :: rest => congrArg (key :: ·) (keys_mergeEntries edge rest)

/-- What stands under a key after a merge is merged with the edge prolonged by the key. -/
theorem mem_mergeEntries {key edge : String} {w : Value} : ∀ {entries : List (String × Value)},
    (key, w) ∈ mergeEntries edge entries →
      ∃ v, (key, v) ∈ entries ∧ w = merge (edge ++ "." ++ key) v
  | [], h => by simp [mergeEntries] at h
  | (key', v) :: rest, h => by
    rw [mergeEntries] at h
    rcases List.mem_cons.mp h with he | hm
    · obtain ⟨rfl, rfl⟩ := Prod.mk.inj he
      exact ⟨v, List.mem_cons_self .., rfl⟩
    · obtain ⟨v', hv', hw⟩ := mem_mergeEntries hm
      exact ⟨v', List.mem_cons_of_mem _ hv', hw⟩

/-- A merge keeps the keys apart. -/
theorem distinctKeys_merge {node : Value} (h : node.distinctKeys = true) :
    ∀ edge, (merge edge node).distinctKeys = true := by
  induction node using Value.induction with
  | scalar v hs =>
    intro edge
    cases v <;> first | rfl | cases hs
  | list id items =>
    intro edge
    refine Value.distinctKeys_list fun v hv => ?_
    rcases List.mem_append.mp hv with hv | hv
    · exact Value.distinctKeys_of_mem_items h v hv
    · rw [List.mem_singleton.mp hv]
      rfl
  | map id entries ih =>
    intro edge
    obtain ⟨hn, hbelow⟩ := Value.distinctKeys_map h
    refine Value.distinctKeys_map_iff.mpr ⟨by rwa [keys_mergeEntries], fun key w hm => ?_⟩
    obtain ⟨v, hv, rfl⟩ := mem_mergeEntries hm
    exact ih key v hv (hbelow key v hv) _

/-- An edge added at a node keeps the keys apart. -/
theorem distinctKeys_addHere (edge : String) {node : Option Value}
    (h : ∀ v, node = some v → v.distinctKeys = true) : (addHere edge node).distinctKeys = true := by
  match node, h with
  | none, _ => rfl
  | some (.list ..), h => exact distinctKeys_merge (h _ rfl) edge
  | some (.map id entries), h =>
    have hmap := h _ rfl
    refine Value.distinctKeys_put hmap (distinctKeys_merge ?_ edge) id
    cases hown : Entries.get? ownKey entries with
    | none => rfl
    | some v => exact (Value.distinctKeys_map hmap).2 ownKey v (Entries.mem_of_get? hown)
  | some .null, _ | some (.bool _), _ | some (.num _), _ | some (.str _), _ => rfl

theorem distinctKeys_opened {node : Option Value}
    (h : ∀ v, node = some v → v.distinctKeys = true) :
    (Value.ofEntries (opened node)).distinctKeys = true := by
  match node, h with
  | some (.list ..), h =>
    have hempty : (Value.ofEntries []).distinctKeys = true := rfl
    exact Value.distinctKeys_put hempty (h _ rfl) (.made 0)
  | some (.map ..), h => exact Value.distinctKeys_map_iff.mpr (Value.distinctKeys_map (h _ rfl))
  | none, _ => rfl
  | some .null, _ | some (.bool _), _ | some (.num _), _ | some (.str _), _ => rfl

/-- An insertion makes no key twice. -/
theorem distinctKeys_insert (edge : String) : ∀ {path : Path} {entries : List (String × Value)},
    (Value.ofEntries entries).distinctKeys = true →
      (Value.ofEntries (insert edge path entries)).distinctKeys = true
  | [], _, h => h
  | [last], entries, h => by
    refine Value.distinctKeys_put h (distinctKeys_addHere edge fun v hv => ?_) _
    exact (Value.distinctKeys_map h).2 last v (Entries.mem_of_get? hv)
  | first :: second :: rest, entries, h => by
    rw [insert_cons_cons]
    refine Value.distinctKeys_put h (distinctKeys_insert edge (distinctKeys_opened ?_)) _
    exact fun v hv => (Value.distinctKeys_map h).2 first v (Entries.mem_of_get? hv)

/-! ## The list of edge sets -/

mutual

/-- The edge sets of a node, each with its path below the node. -/
def sets : Value → List (Path × Value)
  | .list id items => [([], .list id items)]
  | .map _ entries => setsOfEntries entries
  | _ => []
  termination_by structural v => v

/-- The edge sets under the keys of a node. -/
def setsOfEntries : List (String × Value) → List (Path × Value)
  | [] => []
  | (key, v) :: rest =>
    (if key = ownKey then [([], v)] else (sets v).map fun (path, set) => (key :: path, set)) ++
      setsOfEntries rest
  termination_by structural entries => entries

end

theorem sets_of_isScalar {v : Value} (h : v.isScalar = true) : sets v = [] := by
  cases v <;> first | rfl | cases h

/-- The edge sets under one key. -/
def setsUnder (key : String) (v : Value) : List (Path × Value) :=
  if key = ownKey then [([], v)] else (sets v).map fun (path, set) => (key :: path, set)

theorem setsOfEntries_eq (entries : List (String × Value)) :
    setsOfEntries entries = entries.flatMap fun (key, v) => setsUnder key v := by
  induction entries with
  | nil => rfl
  | cons e rest ih =>
    obtain ⟨key, v⟩ := e
    rw [setsOfEntries, ih, List.flatMap_cons]
    rfl

theorem sets_map (id : Ident) (entries : List (String × Value)) :
    sets (.map id entries) = entries.flatMap fun (key, v) => setsUnder key v := by
  rw [sets, setsOfEntries_eq]

theorem edgeSetsOfEntries_eq (path : Path) (entries : List (String × Value)) :
    edgeSetsOfEntries path entries = entries.flatMap fun (key, v) =>
      if key = ownKey then [(path.text, v)] else edgeSets (path ++ [key]) v := by
  induction entries with
  | nil => rfl
  | cons e rest ih => rw [edgeSetsOfEntries, ih, List.flatMap_cons]

/-- The edge sets are listed with the written forms of their paths. -/
theorem edgeSets_eq (node : Value) : ∀ path : Path,
    edgeSets path node = (sets node).map fun (below, set) => ((path ++ below).text, set) := by
  induction node using Value.induction with
  | scalar v h =>
    intro path
    cases v <;> first | rfl | cases h
  | list id items =>
    intro path
    simp [edgeSets, sets]
  | map id entries ih =>
    intro path
    rw [edgeSets, edgeSetsOfEntries_eq, sets_map, List.map_flatMap]
    refine List.flatMap_congr fun e he => ?_
    obtain ⟨key, v⟩ := e
    by_cases hk : key = ownKey
    · simp [setsUnder, hk]
    · simp [setsUnder, hk, ih key v he, Function.comp_def]

/-- Under the key of own edges stands a set, and under another key a node with its sets. -/
theorem mem_setsUnder {key : String} {v set : Value} {path : Path} :
    (path, set) ∈ setsUnder key v ↔ (key = ownKey ∧ path = [] ∧ set = v) ∨
      (key ≠ ownKey ∧ ∃ rest, path = key :: rest ∧ (rest, set) ∈ sets v) := by
  by_cases hk : key = ownKey
  · simp [setsUnder, hk]
  · simp only [setsUnder, hk, if_false, List.mem_map, Prod.mk.injEq, false_and, false_or,
      not_false_eq_true, true_and, ne_eq]
    constructor
    · rintro ⟨⟨rest, w⟩, hm, rfl, rfl⟩
      exact ⟨rest, rfl, hm⟩
    · rintro ⟨rest, rfl, hm⟩
      exact ⟨(rest, set), hm, rfl, rfl⟩

theorem mem_sets_map {id : Ident} {entries : List (String × Value)} {path : Path} {set : Value} :
    (path, set) ∈ sets (.map id entries) ↔
      ∃ key v, (key, v) ∈ entries ∧ (path, set) ∈ setsUnder key v := by
  rw [sets_map, List.mem_flatMap]
  exact Prod.exists

/-- A path under a key starts with it, if it is not the key of the node's own edges. -/
theorem headD_of_mem_setsUnder {key : String} {v : Value} {path : Path}
    (h : path ∈ (setsUnder key v).map Prod.fst) : path.headD ownKey = key := by
  obtain ⟨⟨_, set⟩, hm, rfl⟩ := List.mem_map.mp h
  rcases mem_setsUnder.mp hm with ⟨rfl, rfl, -⟩ | ⟨-, rest, rfl, -⟩
  · rfl
  · rfl

/-- An edge set that a look-up finds is listed. -/
theorem mem_sets_of_set? {node : Value} : ∀ {path : Path} {set : Value}, ownKey ∉ path →
    set? path node = some set → (path, set) ∈ sets node := by
  induction node using Value.induction with
  | scalar v h =>
    intro path set _ hset
    exact absurd ((set?_of_isScalar h path).symm.trans hset) (by simp)
  | list id items =>
    intro path set _ hset
    cases path with
    | nil =>
      obtain rfl := Option.some.inj hset
      simp [sets]
    | cons => cases hset
  | map id entries ih =>
    intro path set hpath hset
    rw [mem_sets_map]
    cases path with
    | nil => exact ⟨ownKey, set, Entries.mem_of_get? hset, mem_setsUnder.mpr (by simp)⟩
    | cons key rest =>
      obtain ⟨v, hv, hset⟩ := Option.bind_eq_some_iff.mp hset
      have hk : key ≠ ownKey := fun he => hpath (by simp [he])
      have hrest : ownKey ∉ rest := fun hm => hpath (List.mem_cons_of_mem _ hm)
      have he := Entries.mem_of_get? hv
      have hm := ih key v he hrest hset
      exact ⟨key, v, he, mem_setsUnder.mpr (Or.inr ⟨hk, rest, rfl, hm⟩)⟩

/-- The edge sets of a node without repeated keys are the ones that a look-up finds. -/
theorem mem_sets_iff {node : Value} (h : node.distinctKeys = true) : ∀ {path : Path} {set : Value},
    (path, set) ∈ sets node ↔ ownKey ∉ path ∧ set? path node = some set := by
  induction node using Value.induction with
  | scalar v hs =>
    intro path set
    simp [set?_of_isScalar hs, sets_of_isScalar hs]
  | list id items =>
    intro path set
    cases path <;> simp [sets, set?, eq_comm]
  | map id entries ih =>
    obtain ⟨distinct, hbelow⟩ := Value.distinctKeys_map_iff.mp h
    intro path set
    refine ⟨fun h => ?_, fun h => mem_sets_of_set? h.1 h.2⟩
    obtain ⟨key, v, he, hm⟩ := mem_sets_map.mp h
    rcases mem_setsUnder.mp hm with ⟨rfl, rfl, rfl⟩ | ⟨hk, rest, rfl, hin⟩
    · exact ⟨List.not_mem_nil, Entries.get?_of_mem distinct he⟩
    · obtain ⟨hrest, hset⟩ := (ih key v he (hbelow key v he)).mp hin
      refine ⟨by simp [hrest, Ne.symm hk], ?_⟩
      rw [set?_map_cons, Entries.get?_of_mem distinct he]
      exact hset

/-- Each path is listed once. -/
theorem nodup_sets {node : Value} (h : node.distinctKeys = true) :
    ((sets node).map Prod.fst).Nodup := by
  induction node using Value.induction with
  | scalar v hs => simp [sets_of_isScalar hs]
  | list id items => simp [sets]
  | map id entries ih =>
    obtain ⟨distinct, hbelow⟩ := Value.distinctKeys_map_iff.mp h
    rw [sets_map, List.map_flatMap, List.nodup_flatMap]
    constructor
    · rintro ⟨key, v⟩ he
      by_cases hk : key = ownKey
      · simp [setsUnder, hk]
      · have hv := (ih key v he (hbelow key v he)).map (List.cons_injective (a := key))
        simpa [setsUnder, hk, Function.comp_def] using hv
    · refine (List.pairwise_map.mp distinct).imp fun {e e'} hne path hm hm' => hne ?_
      rw [← headD_of_mem_setsUnder hm, ← headD_of_mem_setsUnder hm']

end RuleTree.EdgeMap
