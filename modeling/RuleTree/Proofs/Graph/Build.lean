import RuleTree.Proofs.Graph.EdgeSets
import Mathlib.Data.List.Dedup
/-!
# Edge maps built by insertions

`EdgeMap.build` inserts edges one after the other. The set at a path holds the edges
inserted there, in order (`EdgeMap.set?_build`), whichever of the paths were shorter or
longer than it and came earlier or later. Hence the edge sets listed are one for each
path, with its edges (`EdgeMap.edgeSets_build`).
-/

namespace RuleTree.EdgeMap

/-! ## The set at a path -/

/-- The edge map of edges with their paths. -/
def build (pairs : List (Path × String)) : List (String × Value) :=
  pairs.foldl (fun m (path, edge) => insert edge path m) []

/-- The edges at a path, in order. -/
def edgesAt (path : Path) (pairs : List (Path × String)) : List String :=
  (pairs.filter fun e => e.1 = path).map Prod.snd

/-- The edge set of texts, none if there are none. -/
def ofTexts? : List String → Option Value
  | [] => none
  | text :: texts => some (.ofTexts (text :: texts))

theorem ofTexts?_of_ne_nil {texts : List String} (h : texts ≠ []) :
    ofTexts? texts = some (.ofTexts texts) := by
  cases texts with
  | nil => exact absurd rfl h
  | cons text texts => rfl

theorem merge_ofTexts? (edge : String) (texts : List String) :
    merge edge ((ofTexts? texts).getD .null) = .ofTexts (texts ++ [edge]) := by
  cases texts with
  | nil => rfl
  | cons text texts => simp [ofTexts?, Value.ofTexts, Value.ofList, merge]

theorem some_merge_ofTexts? (edge : String) (texts : List String) :
    some (merge edge ((ofTexts? texts).getD .null)) = ofTexts? (texts ++ [edge]) := by
  rw [merge_ofTexts?, ofTexts?_of_ne_nil (by simp)]

theorem set?_empty (path : Path) : set? path (.ofEntries []) = ofTexts? [] := by
  cases path <;> rfl

/-- Every path has segments, and they are plain. -/
def PlainPaths (pairs : List (Path × String)) : Prop :=
  ∀ e ∈ pairs, e.1 ≠ [] ∧ ∀ s ∈ e.1, Path.Plain s

theorem ownKey_not_mem {path : Path} (h : ∀ s ∈ path, Path.Plain s) : ownKey ∉ path :=
  fun hm => (h ownKey hm).1 rfl

/-- If each insertion appends its edge to what a look-up finds when the look-up is for its place,
and keeps what the next one needs, they append the edges at the path of the look-up. -/
theorem lookup_foldl {lookup : List (String × Value) → Option Value} {path : Path}
    {place : Path → Path} {Keeps : List (String × Value) → Prop} :
    ∀ {pairs : List (Path × String)} {entries : List (String × Value)} {old : List String},
      (∀ e ∈ pairs, ∀ entries old, Keeps entries → lookup entries = ofTexts? old →
        Keeps (insert e.2 e.1 entries) ∧ lookup (insert e.2 e.1 entries) =
          ofTexts? (if path = place e.1 then old ++ [e.2] else old)) →
      Keeps entries → lookup entries = ofTexts? old →
        lookup (pairs.foldl (fun m (p, edge) => insert edge p m) entries) =
          ofTexts? (old ++ edgesAt path (pairs.map fun e => (place e.1, e.2)))
  | [], _, _, _, _, hold => by simpa [edgesAt] using hold
  | (p, edge) :: pairs, entries, old, hpairs, hkeeps, hold => by
    obtain ⟨hkept, hnew⟩ := hpairs (p, edge) (by simp) entries old hkeeps hold
    rw [List.foldl_cons, lookup_foldl (fun e he => hpairs e (List.mem_cons_of_mem _ he)) hkept hnew]
    by_cases hp : path = place p
    · simp [edgesAt, hp]
    · simp [edgesAt, hp, Ne.symm hp]

variable {pairs : List (Path × String)}

/-- A look-up that changes with an insertion only at its own path finds the edges of that path. -/
theorem lookup_build {lookup : List (String × Value) → Option Value} {path : Path}
    (hempty : lookup [] = ofTexts? [])
    (hinsert : ∀ e ∈ pairs, ∀ entries old, lookup entries = ofTexts? old →
      lookup (insert e.2 e.1 entries) = ofTexts? (if path = e.1 then old ++ [e.2] else old)) :
    lookup (build pairs) = ofTexts? (edgesAt path pairs) := by
  have hstep : ∀ e ∈ pairs, ∀ entries old, True → lookup entries = ofTexts? old →
      True ∧ lookup (insert e.2 e.1 entries) =
        ofTexts? (if path = id e.1 then old ++ [e.2] else old) :=
    fun e he entries old _ hold => ⟨trivial, hinsert e he entries old hold⟩
  have hbuild := lookup_foldl hstep trivial hempty
  have hid : (pairs.map fun e => (id e.1, e.2)) = pairs := by simp
  rwa [hid] at hbuild

/-- The set at a path holds the edges inserted there. -/
theorem set?_build (h : PlainPaths pairs) {path : Path} (hpath : ownKey ∉ path) :
    set? path (.ofEntries (build pairs)) = ofTexts? (edgesAt path pairs) := by
  refine @lookup_build pairs (fun m => set? path (.ofEntries m)) path (set?_empty path)
    fun e he entries old hold => ?_
  obtain ⟨hne, hplain⟩ := h e he
  rw [set?_insert e.2 entries hne (ownKey_not_mem hplain) hpath]
  split_ifs with hp
  · rw [← hp, hold, some_merge_ofTexts?]
  · exact hold

theorem distinctKeys_build (pairs : List (Path × String)) :
    (Value.ofEntries (build pairs)).distinctKeys = true :=
  List.foldlRecOn (motive := fun m => (Value.ofEntries m).distinctKeys = true) pairs _ rfl
    fun _ hm e _ => distinctKeys_insert e.2 hm

/-! ## The sets listed -/

/-- A node has no key twice, and its edge sets are those of some edges. -/
structure Carries (node : Value) (pairs : List (Path × String)) : Prop where
  distinct : node.distinctKeys = true
  ownKey_not_mem : ∀ e ∈ pairs, ownKey ∉ e.1
  set?_eq : ∀ path, ownKey ∉ path → set? path node = ofTexts? (edgesAt path pairs)

namespace Carries

variable {node : Value}

/-- The edge sets listed are those of the paths of the edges. -/
theorem mem_sets_iff (h : Carries node pairs) {path : Path} {set : Value} :
    (path, set) ∈ sets node ↔ (∃ e ∈ pairs, e.1 = path) ∧ set = .ofTexts (edgesAt path pairs) := by
  rw [EdgeMap.mem_sets_iff h.distinct]
  constructor
  · rintro ⟨hpath, hset⟩
    rw [h.set?_eq path hpath] at hset
    have hne : edgesAt path pairs ≠ [] := by
      intro he
      rw [he] at hset
      cases hset
    rw [ofTexts?_of_ne_nil hne] at hset
    obtain ⟨text, ht⟩ := List.exists_mem_of_ne_nil _ hne
    obtain ⟨e, he, -⟩ := List.mem_map.mp ht
    obtain ⟨hm, hp⟩ := List.mem_filter.mp he
    exact ⟨⟨e, hm, by simpa using hp⟩, (Option.some.inj hset).symm⟩
  · rintro ⟨⟨e, he, rfl⟩, rfl⟩
    have hpath := h.ownKey_not_mem e he
    have hne : edgesAt e.1 pairs ≠ [] :=
      List.ne_nil_of_mem (List.mem_map.mpr ⟨e, List.mem_filter.mpr ⟨he, by simp⟩, rfl⟩)
    exact ⟨hpath, by rw [h.set?_eq _ hpath, ofTexts?_of_ne_nil hne]⟩

/-- A node has an edge set for every path of its edges. -/
theorem set?_of_mem (h : Carries node pairs) {e : Path × String} (he : e ∈ pairs) :
    set? e.1 node = some (.ofTexts (edgesAt e.1 pairs)) :=
  ((EdgeMap.mem_sets_iff h.distinct).mp (h.mem_sets_iff.mpr ⟨⟨e, he, rfl⟩, rfl⟩)).2

/-- The edge sets of a node are those of its edges, one for each of their paths. -/
theorem perm_sets (h : Carries node pairs) : (sets node).Perm
    ((pairs.map Prod.fst).dedup.map fun path => (path, .ofTexts (edgesAt path pairs))) := by
  have hnodup : (sets node).Nodup := List.Nodup.of_map _ (nodup_sets h.distinct)
  have hlisted : ((pairs.map Prod.fst).dedup.map fun path =>
      (path, Value.ofTexts (edgesAt path pairs))).Nodup :=
    (List.nodup_dedup _).map fun _ _ he => (Prod.mk.inj he).1
  refine (List.perm_ext_iff_of_nodup hnodup hlisted).mpr fun ⟨path, set⟩ => ?_
  rw [h.mem_sets_iff]
  simp [eq_comm]

/-- The edge sets of some edges are listed once for each of their paths. -/
theorem perm_edgeSets (h : Carries node pairs) (path : Path) :
    (edgeSets path node).Perm ((pairs.map Prod.fst).dedup.map fun below =>
      ((path ++ below).text, .ofTexts (edgesAt below pairs))) := by
  rw [edgeSets_eq]
  refine (h.perm_sets.map _).trans (List.Perm.of_eq ?_)
  simp

end Carries

theorem carries_build (h : PlainPaths pairs) : Carries (.ofEntries (build pairs)) pairs where
  distinct := distinctKeys_build pairs
  ownKey_not_mem e he := EdgeMap.ownKey_not_mem (h e he).2
  set?_eq _ hpath := set?_build h hpath

/-- The edge sets with the written forms of their paths, each path once. -/
def listed (pairs : List (Path × String)) : List (String × Value) :=
  (pairs.map fun e => e.1.text).dedup.map fun t =>
    (t, .ofTexts ((pairs.filter fun e => e.1.text = t).map Prod.snd))

/-- Plain paths can be compared by their written forms. -/
theorem edgesAt_eq_filter_text (h : PlainPaths pairs) {path : Path}
    (hpath : ∀ s ∈ path, Path.Plain s) :
    edgesAt path pairs = (pairs.filter fun e => e.1.text = path.text).map Prod.snd := by
  unfold edgesAt
  refine congrArg _ (List.filter_congr fun e he => ?_)
  have hiff : e.1 = path ↔ e.1.text = path.text :=
    ⟨congrArg Path.text, Path.text_inj (h e he).2 hpath⟩
  simp [hiff]

/-- The edge sets of a built map are listed once for each path, with the edges inserted. -/
theorem edgeSets_build (h : PlainPaths pairs) :
    (edgeSets [] (.ofEntries (build pairs))).Perm (listed pairs) := by
  have hwritten : ((pairs.map Prod.fst).dedup.map Path.text).Perm
      (pairs.map fun e => e.1.text).dedup := by
    refine (List.perm_ext_iff_of_nodup ?_ (List.nodup_dedup _)).mpr fun t => by simp
    refine (List.nodup_dedup _).map_on fun path hp path' hp' ht => ?_
    obtain ⟨e, he, rfl⟩ := List.mem_map.mp (List.mem_dedup.mp hp)
    obtain ⟨e', he', rfl⟩ := List.mem_map.mp (List.mem_dedup.mp hp')
    exact Path.text_inj (h e he).2 (h e' he').2 ht
  refine ((carries_build h).perm_edgeSets []).trans (.trans (.of_eq ?_) (hwritten.map _))
  rw [List.map_map]
  refine List.map_congr_left fun path hp => ?_
  obtain ⟨e, he, rfl⟩ := List.mem_map.mp (List.mem_dedup.mp hp)
  rw [edgesAt_eq_filter_text h (h e he).2]
  rfl

/-- The edges listed at a written path are those of the pairs that have it. -/
theorem mem_listed {t edge : String} :
    (∃ set, (t, set) ∈ listed pairs ∧ .str edge ∈ elements set) ↔
      ∃ e ∈ pairs, e.1.text = t ∧ e.2 = edge := by
  constructor
  · rintro ⟨set, hset, hedge⟩
    obtain ⟨t', -, heq⟩ := List.mem_map.mp hset
    obtain ⟨rfl, rfl⟩ := Prod.mk.inj heq
    obtain ⟨edge', hm, hstr⟩ := List.mem_map.mp hedge
    obtain rfl := Value.str.inj hstr
    obtain ⟨e, he, rfl⟩ := List.mem_map.mp hm
    obtain ⟨hin, ht⟩ := List.mem_filter.mp he
    exact ⟨e, hin, by simpa using ht, rfl⟩
  · rintro ⟨e, he, rfl, rfl⟩
    refine ⟨_, List.mem_map.mpr ⟨e.1.text, ?_, rfl⟩, ?_⟩
    · exact List.mem_dedup.mpr (List.mem_map.mpr ⟨e, he, rfl⟩)
    · refine List.mem_map.mpr ⟨e.2, List.mem_map.mpr ⟨e, ?_, rfl⟩, rfl⟩
      exact List.mem_filter.mpr ⟨he, by simp⟩

end RuleTree.EdgeMap
