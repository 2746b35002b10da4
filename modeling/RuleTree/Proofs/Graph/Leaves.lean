import RuleTree.Proofs.Graph.Flat
import RuleTree.Proofs.Graph.Lookups
import RuleTree.Proofs.Graph.Prefixes
/-!
# Leaves of a view

A wildcard at the end of a path lists the leaves of what stands at the path. In an edge map
whose own edges are nowhere nested these are the edges in its edge sets, in the same order
(`EdgeMap.Node.flatMap_sets`). Every view keeps the edges of a rule tree under some of their
paths (`Graph.kept`, `Graph.carries_view`); the undirected one hides what is kept by reader
where a path that is read starts with the same segment. So at the first part of a path that a
view keeps edges under, a look-up finds the same edges with a wildcard as without one
(`Graph.edges_append_wildcard`).
-/

namespace RuleTree

namespace EdgeMap

/-! ## Leaves -/

theorem leaves_list (id : Ident) (texts : List String) :
    (Value.list id (texts.map .str)).leaves = texts.map .str := by
  rw [Value.leaves, Value.collected]
  induction texts with
  | nil => rfl
  | cons t texts ih => simpa [Value.opened, Value.isNull] using ih

variable {key edge : String → Prop}

/-- The leaves of a map of nodes are texts, so none is left out. -/
theorem Node.leaves_map {id : Ident} {entries : List (String × Value)}
    (h : Node key edge False (.map id entries)) :
    (Value.map id entries).leaves = entries.flatMap fun e => e.2.leaves := by
  rw [Value.leaves_map, List.filter_eq_self]
  intro x hx
  obtain ⟨⟨k, v⟩, he, hx⟩ := List.mem_flatMap.mp hx
  obtain ⟨t, rfl, -⟩ := (h.parts.2.2 k v he).of_mem_leaves hx
  rfl

/-- The edges in the edge sets under a key are the leaves there, if those in the edge sets below
it are. -/
theorem Node.flatMap_setsUnder {k : String} {v : Value} (h : Node key edge False v)
    (hown : k = ownKey → v.isMap = false)
    (hbelow : ((sets v).flatMap fun s => elements s.2) = v.leaves) :
    ((setsUnder k v).flatMap fun s => elements s.2) = v.leaves := by
  unfold setsUnder
  split
  · next hk =>
    rw [List.flatMap_cons, List.flatMap_nil, List.append_nil]
    cases h with
    | list => exact (leaves_list _ _).symm
    | map => cases hown hk
  · rw [List.flatMap_map]
    exact hbelow

/-- The edges in the edge sets of a node are its leaves. -/
theorem Node.flatMap_sets {v : Value} (h : Node key edge False v) :
    ((sets v).flatMap fun s => elements s.2) = v.leaves := by
  induction h with
  | @list id texts edges =>
    rw [leaves_list]
    simp [sets, elements]
  | @map id entries keys own below ih =>
    have hnode : Node key edge False (.map id entries) := .map keys own below
    rw [hnode.leaves_map, sets_map, List.flatMap_assoc]
    refine List.flatMap_congr fun e he => ?_
    obtain ⟨k, v⟩ := e
    have hown : k = ownKey → v.isMap = false :=
      fun hk => Bool.eq_false_iff.mpr fun hm => own v (hk ▸ he) hm
    exact (below k v he).flatMap_setsUnder hown (ih k v he)

/-! ## Wildcards at the end -/

/-- A reading that finds a list or a map goes on from there. -/
theorem read_append {rest : Path} {inner : Value} (hinner : inner.isScalar = false) :
    ∀ {path : Path} {v : Value}, (∀ s ∈ path, s ≠ Path.wildcard) →
      v.read path true = .ok inner → v.read (path ++ rest) true = inner.read rest true
  | [], v, _, h => by
    obtain rfl := Except.ok.inj h
    rfl
  | segment :: path, v, hpath, h => by
    have hs := hpath segment (List.mem_cons_self ..)
    have hv : v.isScalar = false := by
      refine Bool.eq_false_iff.mpr fun hv => ?_
      rw [read_scalar hv hs] at h
      obtain rfl := Except.ok.inj h
      cases hinner
    rcases of_read_cons hv hs h with rfl | ⟨next, hc, h⟩
    · cases hinner
    · rw [List.cons_append, read_cons_of_child hv hs hc]
      exact read_append hinner (fun s hm => hpath s (List.mem_cons_of_mem _ hm)) h

/-! ## Maps put over others -/

/-- Edges with others put over them, which hide those whose paths start with the same segment. -/
def overlaid (upper base : List (Path × String)) : List (Path × String) :=
  base.filter (fun e => ∀ e' ∈ upper, e'.1.head? ≠ e.1.head?) ++ upper

/-- An insertion changes nothing under keys that its path does not start with. -/
theorem get?_insert_of_ne {segment edge : String} {path : Path} (h : path.head? ≠ some segment)
    (entries : List (String × Value)) :
    Entries.get? segment (insert edge path entries) = Entries.get? segment entries := by
  cases path with
  | nil => rfl
  | cons first rest =>
    have hne : segment ≠ first := fun heq => h (by rw [heq]; rfl)
    cases rest with
    | nil => exact Entries.get?_put_of_ne hne ..
    | cons second rest => exact Entries.get?_put_of_ne hne ..

/-- A segment that no path starts with is no key of a built map. -/
theorem get?_build_eq_none {segment : String} {pairs : List (Path × String)}
    (h : ∀ e ∈ pairs, e.1.head? ≠ some segment) : Entries.get? segment (build pairs) = none :=
  List.foldlRecOn (motive := fun m => Entries.get? segment m = none) pairs _ rfl
    fun m hm e he => (get?_insert_of_ne (h e he) m).trans hm

variable {upper base : List (Path × String)}

/-- The edges at a path are those put over the others if one of these starts like the path. -/
theorem edgesAt_overlaid (path : Path) : edgesAt path (overlaid upper base) =
    if ∃ e ∈ upper, e.1.head? = path.head? then edgesAt path upper else edgesAt path base := by
  have happend : edgesAt path (overlaid upper base) = edgesAt path
      (base.filter fun e => ∀ e' ∈ upper, e'.1.head? ≠ e.1.head?) ++ edgesAt path upper := by
    simp [edgesAt, overlaid]
  rw [happend]
  split
  · next hstarts =>
    obtain ⟨e', he', hhead⟩ := hstarts
    have hhidden : edgesAt path
        (base.filter fun e => ∀ e' ∈ upper, e'.1.head? ≠ e.1.head?) = [] := by
      rw [edgesAt, List.map_eq_nil_iff, List.filter_eq_nil_iff]
      intro e he hpath
      obtain rfl := of_decide_eq_true hpath
      exact of_decide_eq_true (List.mem_filter.mp he).2 e' he' hhead
    rw [hhidden, List.nil_append]
  · next hstarts =>
    have hupper : edgesAt path upper = [] := by
      rw [edgesAt, List.map_eq_nil_iff, List.filter_eq_nil_iff]
      intro e he hpath
      exact hstarts ⟨e, he, congrArg _ (of_decide_eq_true hpath)⟩
    have hbase : edgesAt path
        (base.filter fun e => ∀ e' ∈ upper, e'.1.head? ≠ e.1.head?) = edgesAt path base := by
      rw [edgesAt, edgesAt, List.filter_filter]
      refine congrArg _ (List.filter_congr fun e _ => ?_)
      rw [Bool.and_eq_left_iff_imp]
      intro hpath
      obtain rfl := of_decide_eq_true hpath
      exact decide_eq_true fun e' he' hhead => hstarts ⟨e', he', hhead⟩
    rw [hupper, hbase, List.append_nil]

/-- A segment that a path starts with is a key of a built map. -/
theorem exists_get?_build (h : PlainPaths upper) {segment : String}
    (hstarts : ∃ e ∈ upper, e.1.head? = some segment) :
    ∃ v, Entries.get? segment (build upper) = some v := by
  obtain ⟨e, he, hhead⟩ := hstarts
  obtain ⟨rest, hpath⟩ := List.head?_eq_some_iff.mp hhead
  have hset := (carries_build h).set?_of_mem he
  rw [hpath, Value.ofEntries, set?_map_cons] at hset
  obtain ⟨v, hv, -⟩ := Option.bind_eq_some_iff.mp hset
  exact ⟨v, hv⟩

/-- A built map put over another one carries its own edges and those that it does not hide. -/
theorem carries_putAll (h : PlainPaths upper) (h' : PlainPaths base) :
    Carries (.ofEntries ((build upper).foldl (fun m (k, v) => Entries.put k v m) (build base)))
      (overlaid upper base) := by
  have hdistinct := Value.distinctKeys_map (distinctKeys_build upper)
  have hplain : PlainPaths (overlaid upper base) := by
    intro e he
    rcases List.mem_append.mp he with he | he
    · exact h' e (List.mem_of_mem_filter he)
    · exact h e he
  refine ⟨?_, fun e he => EdgeMap.ownKey_not_mem (hplain e he).2, fun path hpath => ?_⟩
  · exact List.foldlRecOn (motive := fun m => (Value.ofEntries m).distinctKeys = true)
      (build upper) _ (distinctKeys_build base)
      fun m hm e he => Value.distinctKeys_put hm (hdistinct.2 e.1 e.2 he) _
  · have hlookup : ∀ segment, Entries.get? segment ((build upper).foldl
        (fun m (k, v) => Entries.put k v m) (build base)) =
          (Entries.get? segment (build upper)).or (Entries.get? segment (build base)) :=
      fun segment => Entries.get?_putAll hdistinct.1
    rw [edgesAt_overlaid]
    cases path with
    | nil =>
      -- no path is empty, so neither map has own edges
      have hnone : ∀ {pairs : List (Path × String)}, PlainPaths pairs →
          Entries.get? ownKey (build pairs) = none := fun hpairs =>
        get?_build_eq_none fun e he hhead =>
          EdgeMap.ownKey_not_mem (hpairs e he).2 (List.mem_of_mem_head? hhead)
      have hstarts : ¬ ∃ e ∈ upper, e.1.head? = ([] : Path).head? :=
        fun ⟨e, he, hhead⟩ => (h e he).1 (List.head?_eq_none_iff.mp hhead)
      rw [if_neg hstarts, ← set?_build h' hpath]
      simp [Value.ofEntries, set?, hlookup, hnone h, hnone h']
    | cons segment rest =>
      by_cases hstarts : ∃ e ∈ upper, e.1.head? = (segment :: rest).head?
      · obtain ⟨v, hv⟩ := exists_get?_build h hstarts
        rw [if_pos hstarts, ← set?_build h hpath]
        simp only [Value.ofEntries, set?_map_cons, hlookup, hv, Option.some_or]
      · have hnone : Entries.get? segment (build upper) = none :=
          get?_build_eq_none fun e he hhead => hstarts ⟨e, he, hhead⟩
        rw [if_neg hstarts, ← set?_build h' hpath]
        simp only [Value.ofEntries, set?_map_cons, hlookup, hnone, Option.none_or]

/-- The written paths listed are those of the edges carried. -/
theorem Carries.exists_mem_edgeSets_iff {node : Value} {pairs : List (Path × String)}
    (h : Carries node pairs) {t : String} :
    (∃ set, (t, set) ∈ edgeSets [] node) ↔ ∃ e ∈ pairs, e.1.text = t := by
  simp only [(h.perm_edgeSets []).mem_iff, List.nil_append, List.mem_map, List.mem_dedup]
  constructor
  · rintro ⟨set, path, ⟨e, he, rfl⟩, heq⟩
    exact ⟨e, he, (Prod.mk.inj heq).1⟩
  · rintro ⟨e, he, rfl⟩
    exact ⟨_, e.1, ⟨e, he, rfl⟩, rfl⟩

end EdgeMap

/-! ## Look-ups -/

namespace Graph

open EdgeMap Rules

/-- The edges that a view keeps, with the paths that it keeps them under. -/
def kept (es : List Edge) : Direction → List (Path × String)
  | .forward => byReader es
  | .backward => byTarget es
  | .undirected => overlaid (byTarget es) (byReader es)

/-- A path that is kept is one of an edge. -/
theorem exists_of_mem_kept {es : List Edge} {direction : Direction} {e : Path × String}
    (he : e ∈ kept es direction) : ∃ edge ∈ es, e.1 = edge.reader ∨ e.1 = edge.target := by
  have hreader : e ∈ byReader es → ∃ edge ∈ es, e.1 = edge.reader ∨ e.1 = edge.target := by
    intro hm
    obtain ⟨edge, hedge, rfl⟩ := List.mem_map.mp hm
    exact ⟨edge, hedge, Or.inl rfl⟩
  have htarget : e ∈ byTarget es → ∃ edge ∈ es, e.1 = edge.reader ∨ e.1 = edge.target := by
    intro hm
    obtain ⟨edge, hedge, rfl⟩ := List.mem_map.mp hm
    exact ⟨edge, hedge, Or.inr rfl⟩
  cases direction with
  | forward => exact hreader he
  | backward => exact htarget he
  | undirected =>
    rcases List.mem_append.mp he with he | he
    · exact hreader (List.mem_of_mem_filter he)
    · exact htarget he

variable {rules : Value} {g : Graph}

/-- A view carries the edges that it keeps. -/
theorem carries_view (h : PlainEdges rules) (hg : ofRules rules = .ok g) (direction : Direction) :
    Carries (g.view direction) (kept (recorded rules) direction) := by
  rw [ofRules_eq h.group hg]
  cases direction with
  | forward => exact carries_build (plainPaths_byReader h)
  | backward => exact carries_build (plainPaths_byTarget h)
  | undirected => exact carries_putAll (plainPaths_byTarget h) (plainPaths_byReader h)

/-- No own edges are nested in the graph of rules with plain edges. -/
theorem unnested_view (h : PlainEdges rules) (hg : ofRules rules = .ok g)
    (direction : Direction) : Unnested (g.view direction) := by
  rw [ofRules_eq h.group hg, ← ofEdges_eq]
  have hown : ∀ {path : Path}, (∀ s ∈ path, Path.Plain s) → ownKey ∈ path.dropLast → False :=
    fun hpath hm => ownKey_not_mem hpath (List.dropLast_subset _ hm)
  exact node_view trivial (fun hn => hn.elim) direction
    (fun e he => ⟨by simp, hown (h.of_mem he).1.2⟩) (fun e he => ⟨by simp, hown (h.of_mem he).2.2⟩)
    (by simp)

/-- The segments of the paths that a view keeps edges under are no wildcards. -/
theorem ne_wildcard_of_mem_kept (hkeys : ∀ key ∈ groupKeys rules, Path.Simple key)
    (hpaths : ∀ p ∈ askedPaths rules, ∀ s ∈ Path.ofText p, s ≠ "" ∧ s ≠ Path.wildcard)
    {direction : Direction} {e : Path × String} (he : e ∈ kept (recorded rules) direction) :
    ∀ s ∈ e.1, s ≠ Path.wildcard := by
  obtain ⟨edge, hedge, heq⟩ := exists_of_mem_kept he
  obtain ⟨hreader, htarget⟩ := forall_mem_recorded (fun key hk => (hkeys key hk).2)
    Path.toString_ne_wildcard (fun p hp s hs => (hpaths p hp s hs).2) hedge
  rcases heq with heq | heq <;> rw [heq] <;> assumption

/-- The paths that a view lists are those that it keeps edges under. At the first part of such
a path a look-up finds these edges, with a wildcard after it in the same order as without. -/
theorem edges_append_wildcard (hr : rules.isExpression = false) (hg : ofRules rules = .ok g)
    (hkeys : ∀ key ∈ groupKeys rules, Path.Simple key)
    (hpaths : ∀ p ∈ askedPaths rules, ∀ s ∈ Path.ofText p, s ≠ "" ∧ s ≠ Path.wildcard)
    (direction : Direction) :
    (∀ t, (∃ set, (t, set) ∈ edgeSets [] (g.view direction)) ↔
      ∃ e ∈ kept (recorded rules) direction, e.1.text = t) ∧
    ∀ e ∈ kept (recorded rules) direction, ∀ path, path <+: e.1 →
      ∃ found, g.edges path direction = .ok found ∧
        g.edges (path ++ [Path.wildcard]) direction = .ok found ∧ .str e.2 ∈ found := by
  have hplain : PlainEdges rules :=
    ⟨hr, fun key hk => (hkeys key hk).1, fun p hp s hs => (hpaths p hp s hs).1⟩
  have hcarries := carries_view hplain hg direction
  refine ⟨fun t => hcarries.exists_mem_edgeSets_iff, ?_⟩
  rintro e he path ⟨rest, hrest⟩
  have hpath : ∀ s ∈ path, s ≠ Path.wildcard := fun s hs =>
    ne_wildcard_of_mem_kept hkeys hpaths he s (hrest ▸ List.mem_append_left _ hs)
  obtain ⟨inner, hread, hscalar, hmem⟩ := hcarries.exists_read_of_mem he hrest.symm hpath
  have hinner : Unnested inner := by
    rcases of_read (unnested_view hplain hg direction) hpath hread with rfl | hinner | ⟨t, rfl, -⟩
    · cases hscalar
    · exact hinner
    · cases hscalar
  have hleaves : edgesIn inner = inner.leaves := by
    rw [edgesIn_eq_flatMap hscalar, hinner.flatMap_sets]
  refine ⟨inner.leaves, ?_, ?_, hleaves ▸ hmem⟩
  · rw [edges, hread, ← hleaves]
    rfl
  · rw [edges, read_append hscalar hpath hread, Value.read_wildcard]
    rfl

/-- A path that is read as a whole and in parts has the same edges with and without the wildcard. -/
theorem edges_append_wildcard_of_nestedReads : ∃ g : Graph, ofRules nestedReads = .ok g ∧
    (["x"], "e") ∈ kept (recorded nestedReads) .undirected ∧
    g.edges ["x"] .undirected = .ok (["a", "a", "e", "b.c", "d.0"].map .str) ∧
    g.edges ["x", "*"] .undirected = .ok (["a", "a", "e", "b.c", "d.0"].map .str) := by
  obtain ⟨g, hg⟩ : ∃ g, ofRules nestedReads = .ok g := ⟨_, rfl⟩
  have hx : g.edges ["x"] .undirected = .ok (["a", "a", "e", "b.c", "d.0"].map .str) := by
    obtain rfl := Except.ok.inj hg
    rfl
  have he : (["x"], "e") ∈ kept (recorded nestedReads) .undirected := by decide
  obtain ⟨found, hfound, hleaves, -⟩ :=
    (edges_append_wildcard rfl hg (by decide) (by decide) .undirected).2 _ he ["x"] (by decide)
  obtain rfl := Except.ok.inj (hfound.symm.trans hx)
  exact ⟨g, hg, he, hx, hleaves⟩

end Graph

end RuleTree
