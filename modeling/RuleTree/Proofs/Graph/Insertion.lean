import RuleTree.Proofs.Graph.Nodes
/-!
# Insertions into well-formed edge maps

An edge map is well formed if none of its lists is empty and its maps have plain keys, besides the
key of own edges with a list under it (`EdgeMap.WellFormed`). An insertion leaves all edge sets at
other paths in their places (`EdgeMap.filter_sets_insert`) and appends the edge to the one at its
own path (`EdgeMap.filter_sets_insert_self`). So it keeps an edge map well formed
(`EdgeMap.wellFormed_insert`), and nothing but the set of the written path changes in the list of
edge sets (`EdgeMap.edgeSets_insert`).
-/

namespace RuleTree

namespace Entries

variable {α β : Type} {key : String} {v : α} {f : String × α → List β}

/-- A binding changes nothing that is listed if it lists what the one before it did. -/
theorem flatMap_put : ∀ {entries : List (String × α)},
    (f (key, v) = (get? key entries).elim [] fun w => f (key, w)) →
      (put key v entries).flatMap f = entries.flatMap f
  | [], h => by
    rw [put, List.flatMap_singleton, h]
    rfl
  | (k, w) :: rest, h => by
    by_cases hk : k = key
    · subst hk
      rw [get?, if_pos rfl] at h
      rw [put, if_pos rfl, List.flatMap_cons, List.flatMap_cons, h]
      rfl
    · rw [get?, if_neg hk] at h
      rw [put, if_neg hk, List.flatMap_cons, List.flatMap_cons, flatMap_put h]

end Entries

namespace EdgeMap

/-! ## Well-formed nodes -/

/-- A list of edges with at least one. -/
def EdgeList (v : Value) : Prop := ∃ id texts, texts ≠ [] ∧ v = .list id (texts.map .str)

/-- A list of edges, or a map with distinct keys. Under the key of own edges it has a list of edges,
and the other keys are plain and have well-formed nodes. -/
inductive WellFormed : Value → Prop
  | list {v : Value} (edges : EdgeList v) : WellFormed v
  | map {id : Ident} {entries : List (String × Value)} (distinct : (Entries.keys entries).Nodup)
    (own : ∀ v, (ownKey, v) ∈ entries → EdgeList v)
    (plain : ∀ k v, (k, v) ∈ entries → k ≠ ownKey → Path.Plain k)
    (below : ∀ k v, (k, v) ∈ entries → k ≠ ownKey → WellFormed v) : WellFormed (.map id entries)

/-- Lists of edges, and maps of them with plain keys beside the one of own edges, which are not
nested. -/
abbrev PlainNode : Value → Prop :=
  Node (fun k => k = ownKey ∨ Path.Plain k) (fun _ => True) False

variable {v : Value} {id : Ident} {entries : List (String × Value)} {path : Path}

namespace EdgeList

theorem plainNode (h : EdgeList v) : PlainNode v := by
  obtain ⟨id, texts, -, rfl⟩ := h
  exact .list fun _ _ => trivial

theorem distinctKeys (h : EdgeList v) : v.distinctKeys = true := by
  obtain ⟨id, texts, -, rfl⟩ := h
  refine Value.distinctKeys_list fun v hv => ?_
  obtain ⟨t, -, rfl⟩ := List.mem_map.mp hv
  rfl

theorem sets_eq (h : EdgeList v) : sets v = [([], v)] := by
  obtain ⟨id, texts, -, rfl⟩ := h
  rfl

theorem elements_ne_nil (h : EdgeList v) : elements v ≠ [] := by
  obtain ⟨id, texts, hne, rfl⟩ := h
  simpa [elements] using hne

end EdgeList

namespace WellFormed

theorem plainNode (h : WellFormed v) : PlainNode v := by
  induction h with
  | list edges => exact edges.plainNode
  | @map id entries distinct own plain below ih =>
    refine .map (fun k v hv => or_iff_not_imp_left.mpr (plain k v hv)) (fun v hv hmap => ?_)
      fun k v hv => ?_
    · obtain ⟨id, texts, -, rfl⟩ := own v hv
      cases hmap
    · by_cases hk : k = ownKey
      · exact (own v (hk ▸ hv)).plainNode
      · exact ih k v hv hk

theorem distinctKeys (h : WellFormed v) : v.distinctKeys = true := by
  induction h with
  | list edges => exact edges.distinctKeys
  | @map id entries distinct own plain below ih =>
    refine Value.distinctKeys_map_iff.mpr ⟨distinct, fun k v hv => ?_⟩
    by_cases hk : k = ownKey
    · exact (own v (hk ▸ hv)).distinctKeys
    · exact ih k v hv hk

/-- The edge sets are lists of edges at paths of plain segments. -/
theorem of_mem_sets (h : WellFormed v) : ∀ {path : Path} {set : Value},
    (path, set) ∈ sets v → (∀ s ∈ path, Path.Plain s) ∧ EdgeList set := by
  induction h with
  | list edges =>
    intro path set hm
    rw [edges.sets_eq, List.mem_singleton] at hm
    obtain ⟨rfl, rfl⟩ := Prod.mk.inj hm
    exact ⟨by simp, edges⟩
  | @map id entries distinct own plain below ih =>
    intro path set hm
    obtain ⟨k, v, hv, hin⟩ := mem_sets_map.mp hm
    rcases mem_setsUnder.mp hin with ⟨rfl, rfl, rfl⟩ | ⟨hk, rest, rfl, hbelow⟩
    · exact ⟨by simp, own set hv⟩
    · obtain ⟨hrest, edges⟩ := ih k v hv hk hbelow
      exact ⟨List.forall_mem_cons.mpr ⟨plain k v hv hk, hrest⟩, edges⟩

end WellFormed

theorem PlainNode.edgeList (h : PlainNode v) (hmap : v.isMap = false) (hne : elements v ≠ []) :
    EdgeList v := by
  cases h with
  | @list id texts => exact ⟨id, texts, fun he => hne (by rw [he]; rfl), rfl⟩
  | map => cases hmap

/-- A node is well formed if its keys are plain and distinct, own edges are not nested, and no edge
set is empty. -/
theorem wellFormed_iff : WellFormed v ↔
    PlainNode v ∧ v.distinctKeys = true ∧ ∀ path set, (path, set) ∈ sets v → elements set ≠ [] := by
  constructor
  · exact fun h => ⟨h.plainNode, h.distinctKeys, fun _ _ hm => (h.of_mem_sets hm).2.elements_ne_nil⟩
  · rintro ⟨hnode, hdistinct, hne⟩
    induction hnode with
    | @list id texts edges =>
      exact .list (PlainNode.edgeList (.list edges) rfl (hne [] _ (by simp [sets])))
    | @map id entries keys own below ih =>
      obtain ⟨distinct, hbelow⟩ := Value.distinctKeys_map hdistinct
      have hset : ∀ k v path set, (k, v) ∈ entries → (path, set) ∈ setsUnder k v →
          elements set ≠ [] := fun k v path set hv hin =>
        hne path set (mem_sets_map.mpr ⟨k, v, hv, hin⟩)
      refine .map distinct (fun v hv => ?_) (fun k v hv => (keys k v hv).resolve_left)
        fun k v hv hk => ih k v hv (hbelow k v hv) fun path set hm => ?_
      · have hlist : v.isMap = false := by simpa using own v hv
        have hown : ([], v) ∈ setsUnder ownKey v := mem_setsUnder.mpr (Or.inl ⟨rfl, rfl, rfl⟩)
        exact PlainNode.edgeList (below ownKey v hv) hlist (hset _ _ _ _ hv hown)
      · exact hset k v (k :: path) set hv (mem_setsUnder.mpr (Or.inr ⟨hk, path, rfl, hm⟩))

/-! ## The sets at other paths -/

/-- The sets under a key, apart from the one at a path through it. -/
theorem filter_setsUnder {key : String} (hk : key ≠ ownKey) (rest : Path) (v : Value) :
    (setsUnder key v).filter (fun s => s.1 ≠ key :: rest) =
      ((sets v).filter fun s => s.1 ≠ rest).map fun s => (key :: s.1, s.2) := by
  rw [setsUnder, if_neg hk, List.filter_map]
  simp [Function.comp_def]

/-- A node bound to a key changes no set at another path if it has the sets that the node before
had, apart from the one at the rest of the path. -/
theorem filter_sets_put {key : String} (hk : key ≠ ownKey) {rest : Path}
    (h : (sets v).filter (fun s => s.1 ≠ rest) =
      ((Entries.get? key entries).elim [] sets).filter fun s => s.1 ≠ rest) (id' : Ident) :
    (sets (.map id' (Entries.put key v entries))).filter (fun s => s.1 ≠ key :: rest) =
      (sets (.map id entries)).filter fun s => s.1 ≠ key :: rest := by
  rw [sets_map, sets_map, List.filter_flatMap, List.filter_flatMap]
  refine Entries.flatMap_put ?_
  rw [filter_setsUnder hk, h]
  cases Entries.get? key entries with
  | none => rfl
  | some w => exact (filter_setsUnder hk rest w).symm

/-- What is opened has the sets of the node. -/
theorem sets_opened (node : Option Value) :
    sets (.ofEntries (opened node)) = node.elim [] sets := by
  match node with
  | none | some (.list ..) | some (.map ..) => rfl
  | some .null | some (.bool _) | some (.num _) | some (.str _) => rfl

/-- An edge added where a path ends changes no set below. -/
theorem filter_sets_addHere (edge : String) (node : Option Value) :
    (sets (addHere edge node)).filter (fun s => s.1 ≠ []) =
      (node.elim [] sets).filter fun s => s.1 ≠ [] := by
  match node with
  | none | some (.list ..) => rfl
  | some .null | some (.bool _) | some (.num _) | some (.str _) => rfl
  | some (.map id entries) =>
    have hown : ∀ v, (setsUnder ownKey v).filter (fun s => s.1 ≠ []) = [] := fun v => by
      simp [setsUnder]
    -- only the node's own edges are bound anew, and they are left out on both sides
    rw [addHere, Option.elim_some, sets_map, sets_map, List.filter_flatMap, List.filter_flatMap]
    refine Entries.flatMap_put ?_
    rw [hown]
    cases Entries.get? ownKey entries with
    | none => rfl
    | some w => exact (hown w).symm

/-- An insertion leaves the sets at other paths in their places. -/
theorem filter_sets_insert (edge : String) : ∀ {path : Path} (entries : List (String × Value)),
    path ≠ [] → ownKey ∉ path →
      (sets (.ofEntries (insert edge path entries))).filter (fun s => s.1 ≠ path) =
        (sets (.ofEntries entries)).filter fun s => s.1 ≠ path
  | [], _, h, _ => absurd rfl h
  | [last], entries, _, hp =>
    filter_sets_put (fun he => hp (by simp [he])) (filter_sets_addHere edge _) _
  | first :: second :: rest, entries, _, hp => by
    have hrest : ownKey ∉ second :: rest := fun hm => hp (List.mem_cons_of_mem _ hm)
    rw [insert_cons_cons]
    refine filter_sets_put (fun he => hp (by simp [he])) ?_ _
    rw [filter_sets_insert edge _ (List.cons_ne_nil _ _) hrest, sets_opened]

/-! ## The set at the path -/

/-- A node without repeated keys lists at a path the set that a look-up finds there. -/
theorem filter_sets_eq (h : v.distinctKeys = true) (hp : ownKey ∉ path) :
    (sets v).filter (fun s => s.1 = path) = ((set? path v).map fun set => (path, set)).toList := by
  have hlisted : ∀ s ∈ (sets v).filter (fun s => s.1 = path), set? path v = some s.2 ∧ s.1 = path :=
    fun ⟨path', set⟩ hs => by
      obtain ⟨hm, he⟩ := List.mem_filter.mp hs
      obtain rfl : path' = path := by simpa using he
      exact ⟨((mem_sets_iff h).mp hm).2, rfl⟩
  cases hset : set? path v with
  | none =>
    refine List.eq_nil_iff_forall_not_mem.mpr fun s hs => ?_
    rw [hset] at hlisted
    cases (hlisted s hs).1
  | some set =>
    have hnodup : ((sets v).filter fun s => s.1 = path).Nodup :=
      (List.Nodup.of_map _ (nodup_sets h)).filter _
    refine List.perm_singleton.mp ((List.perm_ext_iff_of_nodup hnodup
      (List.nodup_singleton _)).mpr fun s => ?_)
    rw [List.mem_singleton]
    constructor
    · intro hs
      obtain ⟨hfound, hpath⟩ := hlisted s hs
      exact Prod.ext hpath (Option.some.inj (hfound.symm.trans hset))
    · rintro rfl
      exact List.mem_filter.mpr ⟨(mem_sets_iff h).mpr ⟨hp, hset⟩, by simp⟩

/-- An edge merged into a list of edges, or into none, is appended to it. -/
theorem merge_getD {set : Option Value} (h : ∀ v, set = some v → EdgeList v) (edge : String) :
    merge edge (set.getD .null) = .ofList (set.elim [] elements ++ [.str edge]) := by
  cases set with
  | none => rfl
  | some v =>
    obtain ⟨id, texts, -, rfl⟩ := h v rfl
    rfl

/-- An insertion appends the edge to the set at its path. -/
theorem filter_sets_insert_self (edge : String) (h : WellFormed (.ofEntries entries))
    (hne : path ≠ []) (hp : ∀ s ∈ path, Path.Plain s) :
    (sets (.ofEntries (insert edge path entries))).filter (fun s => s.1 = path) =
      [(path, .ofList ((set? path (.ofEntries entries)).elim [] elements ++ [.str edge]))] := by
  have hown : ownKey ∉ path := ownKey_not_mem hp
  have hold : ∀ v, set? path (.ofEntries entries) = some v → EdgeList v := fun v hv =>
    (h.of_mem_sets (mem_sets_of_set? hown hv)).2
  rw [filter_sets_eq (distinctKeys_insert edge h.distinctKeys) hown,
    set?_insert edge entries hne hown hown, if_pos rfl, merge_getD hold]
  rfl

/-- An insertion keeps an edge map well formed. -/
theorem wellFormed_insert (edge : String) (h : WellFormed (.ofEntries entries))
    (hne : path ≠ []) (hp : ∀ s ∈ path, Path.Plain s) :
    WellFormed (.ofEntries (insert edge path entries)) := by
  have hown : ownKey ∉ path := ownKey_not_mem hp
  refine wellFormed_iff.mpr ⟨?_, distinctKeys_insert edge h.distinctKeys, fun other set hm => ?_⟩
  · exact node_insert (Or.inl rfl) (fun hn => hn.elim) trivial (fun s hs => Or.inr (hp s hs))
      (fun hm => absurd (List.dropLast_subset _ hm) hown) h.plainNode
  · -- the set at the path has the edge, and any other has been there before
    by_cases hother : other = path
    · subst hother
      have hset : (other, set) ∈ (sets (.ofEntries (insert edge other entries))).filter
          fun s => s.1 = other := List.mem_filter.mpr ⟨hm, by simp⟩
      rw [filter_sets_insert_self edge h hne hp, List.mem_singleton] at hset
      rw [(Prod.mk.inj hset).2]
      simp [elements, Value.ofList]
    · have hset : (other, set) ∈ (sets (.ofEntries (insert edge path entries))).filter
          fun s => s.1 ≠ path := List.mem_filter.mpr ⟨hm, by simpa using hother⟩
      rw [filter_sets_insert edge entries hne hown] at hset
      exact (h.of_mem_sets (List.mem_filter.mp hset).1).2.elements_ne_nil

/-- An edge map built from edges at paths of plain segments is well formed. -/
theorem wellFormed_build {pairs : List (Path × String)} (h : PlainPaths pairs) :
    WellFormed (.ofEntries (build pairs)) := by
  refine List.foldlRecOn (motive := fun m => WellFormed (.ofEntries m)) pairs _ ?_
    fun m hm e he => wellFormed_insert e.2 hm (h e he).1 (h e he).2
  exact .map List.nodup_nil (by simp) (by simp) (by simp)

/-! ## The list of edge sets -/

/-- The edges listed at a written path, none if it is not listed. -/
def edgesListed (t : String) (node : Value) : List Value :=
  ((edgeSets [] node).filter fun s => s.1 = t).flatMap fun s => elements s.2

/-- In a well-formed node a set is listed under a written path exactly if it is at the path. -/
theorem WellFormed.filter_edgeSets (h : WellFormed v) (hp : ∀ s ∈ path, Path.Plain s) :
    (edgeSets [] v).filter (fun s => s.1 = path.text) =
        ((sets v).filter fun s => s.1 = path).map (fun s => (s.1.text, s.2)) ∧
      (edgeSets [] v).filter (fun s => s.1 ≠ path.text) =
        ((sets v).filter fun s => s.1 ≠ path).map fun s => (s.1.text, s.2) := by
  have hiff : ∀ s ∈ sets v, s.1.text = path.text ↔ s.1 = path := fun s hs =>
    ⟨Path.text_inj (h.of_mem_sets hs).1 hp, congrArg Path.text⟩
  rw [edgeSets_eq, List.filter_map, List.filter_map]
  constructor
  · exact congrArg _ (List.filter_congr fun s hs => by simp [hiff s hs])
  · exact congrArg _ (List.filter_congr fun s hs => by simp [hiff s hs])

/-- An insertion at a path of plain segments keeps an edge map well formed and gives it no edges of
its own. The path is listed with the edge behind those that were listed there, and all else is
listed as before. -/
theorem edgeSets_insert (edge : String) (h : WellFormed (.ofEntries entries))
    (hroot : Entries.get? ownKey entries = none) (hne : path ≠ [])
    (hp : ∀ s ∈ path, Path.Plain s) :
    WellFormed (.ofEntries (insert edge path entries)) ∧
    Entries.get? ownKey (insert edge path entries) = none ∧
    (edgeSets [] (.ofEntries (insert edge path entries))).filter (fun s => s.1 = path.text) =
      [(path.text, .ofList (edgesListed path.text (.ofEntries entries) ++ [.str edge]))] ∧
    (edgeSets [] (.ofEntries (insert edge path entries))).filter (fun s => s.1 ≠ path.text) =
      (edgeSets [] (.ofEntries entries)).filter fun s => s.1 ≠ path.text := by
  have hown : ownKey ∉ path := ownKey_not_mem hp
  have hinsert := wellFormed_insert edge h hne hp
  have hlisted : edgesListed path.text (.ofEntries entries) =
      (set? path (.ofEntries entries)).elim [] elements := by
    rw [edgesListed, (h.filter_edgeSets hp).1, filter_sets_eq h.distinctKeys hown]
    cases set? path (.ofEntries entries) with
    | none => rfl
    | some set => exact List.append_nil _
  refine ⟨hinsert, ?_, ?_, ?_⟩
  · have hset := set?_insert edge entries hne hown (List.not_mem_nil (a := ownKey))
    rw [if_neg (Ne.symm hne)] at hset
    exact hset.trans hroot
  · rw [(hinsert.filter_edgeSets hp).1, filter_sets_insert_self edge h hne hp, hlisted]
    rfl
  · rw [(hinsert.filter_edgeSets hp).2, filter_sets_insert edge entries hne hown,
      (h.filter_edgeSets hp).2]

/-- Edges of a path and of one below another. -/
def taxPairs : List (Path × String) := [(["tax"], "rate"), (["total", "net"], "price.net")]

/-- An insertion below the path that has a list of edges moves the list aside. -/
theorem edgeSets_insert_of_taxPairs : WellFormed (.ofEntries (build taxPairs)) ∧
    Entries.get? ownKey (build taxPairs) = none ∧ (∀ s ∈ ["tax", "due"], Path.Plain s) ∧
    (edgeSets [] (.ofEntries (insert "rate.due" ["tax", "due"] (build taxPairs)))).filter
      (fun s => s.1 = "tax.due") = [("tax.due", .ofTexts ["rate.due"])] ∧
    (edgeSets [] (.ofEntries (insert "rate.due" ["tax", "due"] (build taxPairs)))).filter
      (fun s => s.1 ≠ "tax.due") =
        [("tax", .ofTexts ["rate"]), ("total.net", .ofTexts ["price.net"])] := by
  have hpairs : PlainPaths taxPairs := by
    unfold PlainPaths
    decide
  have hwell := wellFormed_build hpairs
  have hplain : ∀ s ∈ ["tax", "due"], Path.Plain s := by decide
  obtain ⟨-, -, hset, hothers⟩ :=
    edgeSets_insert "rate.due" hwell rfl (List.cons_ne_nil _ _) hplain
  exact ⟨hwell, rfl, hplain, hset, hothers⟩

end EdgeMap

end RuleTree
