import RuleTree.Proofs.Graph.Nodes
import Mathlib.Data.List.Perm.Basic
/-!
# Sites of edges

An edge belongs to a node, its site : the node at its path, or the node above it if the path
ends in an empty segment, since the key of own edges is empty. As long as no other segment is
empty, the edge set of a site holds the edges inserted there (`EdgeMap.set?_build_site`). With
an empty segment before the last one, own edges are nested : a map is listed as an edge set
(`EdgeMap.Nested.exists_mem_sets`). So edges inserted in another order give the same edge sets
exactly if there is no such segment (`EdgeMap.sameSets_build_iff`).
-/

namespace RuleTree.EdgeMap

/-! ## Insertions at sites -/

/-- The path without an empty last segment. -/
def site : Path → Path
  | [] => []
  | [last] => if last = ownKey then [] else [last]
  | first :: second :: rest => first :: site (second :: rest)

/-- The place where the edges of a path are kept has no empty segment. -/
theorem ownKey_not_mem_site : ∀ {path : Path}, ownKey ∉ path.dropLast → ownKey ∉ site path
  | [], _ => List.not_mem_nil
  | [last], _ => by
    by_cases h : last = ownKey
    · simp [site, h]
    · simp [site, h, Ne.symm h]
  | first :: second :: rest, h => by
    rw [List.dropLast_cons_of_ne_nil (List.cons_ne_nil _ _), List.mem_cons, not_or] at h
    rw [site, List.mem_cons, not_or]
    exact ⟨h.1, ownKey_not_mem_site h.2⟩

/-- Lists of edges, and maps of them in which own edges are not nested. -/
abbrev Unnested : Value → Prop := Node (fun _ => True) (fun _ => True) False

variable {edge : String} {entries : List (String × Value)} {id : Ident}

/-- The own edges of a node are no map. -/
theorem addHere_own (h : Unnested (.map id entries)) (edge : String) :
    addHere edge (Entries.get? ownKey entries) =
      merge edge ((Entries.get? ownKey entries).getD .null) := by
  cases hown : Entries.get? ownKey entries with
  | none => rfl
  | some v =>
    cases h.get? hown with
    | list => rfl
    | map => exact (h.parts.2.1 _ (Entries.mem_of_get? hown) rfl).elim

/-- An insertion adds the edge to the set at its site and keeps every other set. -/
theorem set?_insert_site (edge : String) : ∀ {path other : Path}
    {entries : List (String × Value)}, path ≠ [] → ownKey ∉ path.dropLast → ownKey ∉ other →
      Unnested (.ofEntries entries) →
        set? other (.ofEntries (insert edge path entries)) =
          if other = site path then
            some (merge edge ((set? (site path) (.ofEntries entries)).getD .null))
          else set? other (.ofEntries entries)
  | [], _, _, h, _, _, _ => absurd rfl h
  | [last], other, entries, _, _, ho, hnode => by
    by_cases hlast : last = ownKey
    · subst hlast
      rw [site, if_pos rfl, insert, addHere_own hnode]
      cases other with
      | nil =>
        rw [if_pos rfl, Value.ofEntries, set?, Entries.get?_put_self]
        rfl
      | cons segment tail =>
        have hne : segment ≠ ownKey := fun he => ho (by simp [he])
        rw [set?_put_cons, if_neg hne, if_neg (List.cons_ne_nil _ _)]
    · have hsite : site [last] = [last] := if_neg hlast
      rw [hsite]
      exact set?_insert edge entries (List.cons_ne_nil _ _) (by simp [Ne.symm hlast]) ho
  | first :: second :: rest, [], entries, _, hp, _, _ => by
    have hfirst : first ≠ ownKey := fun he => hp (by simp [he])
    rw [site, if_neg (List.cons_ne_nil _ _).symm]
    exact set?_put_nil hfirst _ entries
  | first :: second :: rest, segment :: tail, entries, _, hp, ho, hnode => by
    rw [insert_cons_cons, set?_put_cons, site]
    by_cases hs : segment = first
    · subst hs
      have hp' : ownKey ∉ (second :: rest).dropLast := fun hm => hp (List.mem_cons_of_mem _ hm)
      have ho' : ownKey ∉ tail := fun hm => ho (List.mem_cons_of_mem _ hm)
      have hinner : Unnested (.ofEntries (opened (Entries.get? segment entries))) :=
        node_opened trivial fun v hv => hnode.get? hv
      rw [if_pos rfl, set?_insert_site edge (List.cons_ne_nil _ _) hp' ho' hinner,
        set?_opened (ownKey_not_mem_site hp'), set?_opened ho']
      simp only [List.cons.injEq, true_and]
      rfl
    · rw [if_neg hs, if_neg (by simp [hs])]

/-! ## Maps built without nesting -/

/-- Every path has segments, and none of them but the last may be empty. -/
def Insertable (pairs : List (Path × String)) : Prop :=
  ∀ e ∈ pairs, e.1 ≠ [] ∧ ownKey ∉ e.1.dropLast

/-- The edges with the sites of their paths. -/
def sited (pairs : List (Path × String)) : List (Path × String) :=
  pairs.map fun e => (site e.1, e.2)

variable {pairs pairs' : List (Path × String)}

/-- The set at a site holds the edges inserted there. -/
theorem set?_build_site (h : Insertable pairs) {path : Path} (hpath : ownKey ∉ path) :
    set? path (.ofEntries (build pairs)) = ofTexts? (edgesAt path (sited pairs)) := by
  have hinsert : ∀ e ∈ pairs, ∀ entries old, Unnested (.ofEntries entries) →
      set? path (.ofEntries entries) = ofTexts? old →
        Unnested (.ofEntries (insert e.2 e.1 entries)) ∧
          set? path (.ofEntries (insert e.2 e.1 entries)) =
            ofTexts? (if path = site e.1 then old ++ [e.2] else old) := by
    intro e he entries old hnode hold
    obtain ⟨hne, hinner⟩ := h e he
    have hkept : Unnested (.ofEntries (insert e.2 e.1 entries)) :=
      node_insert trivial (fun hn => hn.elim) trivial (fun _ _ => trivial) hinner hnode
    refine ⟨hkept, (set?_insert_site e.2 hne hinner hpath hnode).trans ?_⟩
    split_ifs with hp
    · rw [← hp, hold, some_merge_ofTexts?]
    · exact hold
  exact lookup_foldl hinsert (Node.empty _) (set?_empty path)

/-- A map that is built carries each edge at the site of its path. -/
theorem carries_build_site (h : Insertable pairs) :
    Carries (.ofEntries (build pairs)) (sited pairs) where
  distinct := distinctKeys_build pairs
  ownKey_not_mem e he := by
    obtain ⟨e, hm, rfl⟩ := List.mem_map.mp he
    exact ownKey_not_mem_site (h e hm).2
  set?_eq _ hpath := set?_build_site h hpath

/-! ## Sets in another order -/

/-- Two sets are listed under the same written path, and both are lists of the same texts. -/
def SameSet (set set' : String × Value) : Prop :=
  set.1 = set'.1 ∧ ∃ texts texts', set.2 = .ofTexts texts ∧ set'.2 = .ofTexts texts' ∧
    texts.Perm texts'

/-- The same sets are listed, in some order. -/
def SameSets (listed listed' : List (String × Value)) : Prop :=
  ∃ matched, List.Forall₂ SameSet listed matched ∧ matched.Perm listed'

theorem SameSets.ofTexts {listed listed' : List (String × Value)} (h : SameSets listed listed') :
    ∀ s ∈ listed, ∃ texts, s.2 = .ofTexts texts := by
  obtain ⟨matched, hmatched, -⟩ := h
  intro s hs
  obtain ⟨s', -, -, texts, -, ht, -⟩ := exists_mem_right_of_forall₂ hmatched hs
  exact ⟨texts, ht⟩

/-- The edge sets of the same edges in another order. -/
theorem Carries.sameSets {node node' : Value} (h : Carries node pairs) (h' : Carries node' pairs')
    (hperm : pairs.Perm pairs') (path : Path) :
    SameSets (edgeSets path node) (edgeSets path node') := by
  have hpaths : (pairs'.map Prod.fst).dedup.Perm (pairs.map Prod.fst).dedup :=
    (hperm.symm.map _).dedup
  have hlisted := (h'.perm_edgeSets path).trans (hpaths.map _)
  have hsame : ∀ below, SameSet ((path ++ below).text, .ofTexts (edgesAt below pairs))
      ((path ++ below).text, .ofTexts (edgesAt below pairs')) := by
    intro below
    have htexts : (edgesAt below pairs).Perm (edgesAt below pairs') := (hperm.filter _).map _
    exact ⟨rfl, _, _, rfl, rfl, htexts⟩
  have hlists := List.forall₂_map_left_iff.mpr (List.forall₂_map_right_iff.mpr
    (List.forall₂_same.mpr fun below (_ : below ∈ (pairs.map Prod.fst).dedup) => hsame below))
  obtain ⟨matched, hmatched, hm⟩ := List.perm_comp_forall₂ (h.perm_edgeSets path) hlists
  exact ⟨matched, hmatched, hm.trans hlisted.symm⟩

/-! ## Nested own edges -/

/-- Somewhere in a node a map stands for a node's own edges. -/
inductive Nested : Value → Prop
  | own {id : Ident} {entries : List (String × Value)} {v : Value}
    (get : Entries.get? ownKey entries = some v) (map : v.isMap = true) : Nested (.map id entries)
  | under {id : Ident} {entries : List (String × Value)} {key : String} {v : Value}
    (ne : key ≠ ownKey) (get : Entries.get? key entries = some v) (below : Nested v) :
    Nested (.map id entries)

namespace Nested

theorem exists_map {v : Value} (h : Nested v) : ∃ id entries, v = .map id entries := by
  cases h <;> exact ⟨_, _, rfl⟩

/-- Edges stay nested under another identity, and if what a key is bound to stays nested. -/
theorem put {id : Ident} {entries : List (String × Value)} (h : Nested (.map id entries))
    {key : String} {w : Value} (hmap : ∀ v, Entries.get? key entries = some v →
      v.isMap = true → w.isMap = true)
    (hbelow : ∀ v, Entries.get? key entries = some v → key ≠ ownKey → Nested v → Nested w)
    (id' : Ident) : Nested (.map id' (Entries.put key w entries)) := by
  cases h with
  | own get map =>
    by_cases hk : ownKey = key
    · subst hk
      exact .own (Entries.get?_put_self ..) (hmap _ get map)
    · exact .own ((Entries.get?_put_of_ne hk ..).trans get) map
  | @under _ _ key' v ne get below =>
    by_cases hk : key' = key
    · subst hk
      exact .under ne (Entries.get?_put_self ..) (hbelow v get ne below)
    · exact .under ne ((Entries.get?_put_of_ne hk ..).trans get) below

/-- Nested own edges stay nested when an edge is added. -/
theorem addHere {v : Value} (h : Nested v) (edge : String) :
    Nested (EdgeMap.addHere edge (some v)) := by
  obtain ⟨id, entries, rfl⟩ := h.exists_map
  refine h.put (fun v hv hm => ?_) (fun _ _ hne => absurd rfl hne) id
  obtain ⟨id', entries', rfl⟩ := Value.exists_map_of_isMap hm
  rw [hv]
  rfl

theorem opened {v : Value} (h : Nested v) : Nested (.ofEntries (EdgeMap.opened (some v))) := by
  cases h with
  | own get map => exact .own get map
  | under ne get below => exact .under ne get below

/-- Insertions keep edges nested. -/
theorem insert (edge : String) : ∀ {path : Path} {entries : List (String × Value)},
    Nested (.ofEntries entries) → Nested (.ofEntries (EdgeMap.insert edge path entries))
  | [], _, h => h
  | [last], entries, h => by
    refine h.put (fun v hv hm => ?_) (fun v hv _ hn => ?_) _
    · obtain ⟨id, entries', rfl⟩ := Value.exists_map_of_isMap hm
      rw [hv]
      rfl
    · rw [hv]
      exact hn.addHere edge
  | first :: second :: rest, entries, h => by
    rw [insert_cons_cons]
    refine h.put (fun _ _ _ => rfl) (fun v hv _ hn => ?_) _
    rw [hv]
    exact insert edge hn.opened

/-- An insertion through an empty segment nests edges. -/
theorem of_insert (edge : String) : ∀ {path : Path} (entries : List (String × Value)),
    ownKey ∈ path.dropLast → Nested (.ofEntries (EdgeMap.insert edge path entries))
  | [], _, h | [_], _, h => absurd h List.not_mem_nil
  | first :: second :: rest, entries, h => by
    rw [insert_cons_cons]
    by_cases hfirst : first = ownKey
    · subst hfirst
      exact .own (Entries.get?_put_self ..) rfl
    · have hrest : ownKey ∈ (second :: rest).dropLast := by
        rw [List.dropLast_cons_of_ne_nil (List.cons_ne_nil _ _), List.mem_cons] at h
        exact h.resolve_left (Ne.symm hfirst)
      exact .under hfirst (Entries.get?_put_self ..) (of_insert edge _ hrest)

/-- Nested edges are listed as an edge set. -/
theorem exists_mem_sets {node : Value} (h : Nested node) :
    ∃ path set, (path, set) ∈ sets node ∧ set.isMap = true := by
  have hset : ∃ path set, ownKey ∉ path ∧ set? path node = some set ∧ set.isMap = true := by
    induction h with
    | own get map => exact ⟨[], _, List.not_mem_nil, get, map⟩
    | @under _ _ key _ ne get _ ih =>
      obtain ⟨path, set, hpath, hset, hm⟩ := ih
      refine ⟨key :: path, set, by simp [ne.symm, hpath], ?_, hm⟩
      rw [set?_map_cons, get]
      exact hset
  obtain ⟨path, set, hpath, hset, hm⟩ := hset
  exact ⟨path, set, mem_sets_of_set? hpath hset, hm⟩

end Nested

/-- A path with an empty segment before its last one nests edges, whatever is inserted before
and after. -/
theorem nested_build {e : Path × String} (he : e ∈ pairs) (h : ownKey ∈ e.1.dropLast) :
    Nested (.ofEntries (build pairs)) := by
  obtain ⟨before, after, rfl⟩ := List.append_of_mem he
  rw [build, List.foldl_append, List.foldl_cons]
  exact List.foldlRecOn (motive := fun m => Nested (.ofEntries m)) after _ (.of_insert e.2 _ h)
    fun m hm e' _ => hm.insert e'.2

/-- Edges inserted in another order give the same edge sets exactly if no path has an empty
segment before its last one. -/
theorem sameSets_build_iff (hne : ∀ e ∈ pairs, e.1 ≠ []) (hperm : pairs.Perm pairs')
    (path : Path) : SameSets (edgeSets path (.ofEntries (build pairs)))
      (edgeSets path (.ofEntries (build pairs'))) ↔ ∀ e ∈ pairs, ownKey ∉ e.1.dropLast := by
  constructor
  · intro h e he hm
    obtain ⟨below, set, hset, hmap⟩ := (nested_build he hm).exists_mem_sets
    have hlisted : ((path ++ below).text, set) ∈ edgeSets path (.ofEntries (build pairs)) := by
      rw [edgeSets_eq]
      exact List.mem_map.mpr ⟨(below, set), hset, rfl⟩
    obtain ⟨texts, rfl⟩ := h.ofTexts _ hlisted
    cases hmap
  · intro h
    have hpairs : Insertable pairs := fun e he => ⟨hne e he, h e he⟩
    have hpairs' : Insertable pairs' := fun e he => hpairs e (hperm.mem_iff.mpr he)
    exact (carries_build_site hpairs).sameSets (carries_build_site hpairs') (hperm.map _) path

end RuleTree.EdgeMap
