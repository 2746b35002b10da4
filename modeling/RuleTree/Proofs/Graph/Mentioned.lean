import RuleTree.Proofs.Graph.Nodes
import Mathlib.Data.Set.Card
/-!
# What a graph mentions

`EdgeMap.mentioned` lists the texts, their characters and the keys in a value. Whatever a path
leads to in a value, wildcards on the way included, mentions nothing else
(`EdgeMap.mentioned_read`), so every text that a look-up in a graph finds is mentioned in the
graph (`Graph.mem_mentioned_of_edges`). The texts that look-ups find at all are therefore
finitely many (`Graph.finite_given`).
-/

namespace RuleTree

namespace EdgeMap

/-! ## What a map mentions -/

mutual

/-- The texts, their characters and the keys in a value. -/
def mentioned : Value → List String
  | .str s => s :: s.toList.map Char.toString
  | .list _ items => mentionedOfItems items
  | .map _ entries => mentionedOfEntries entries
  | _ => []
  termination_by structural v => v

/-- The texts, their characters and the keys in items. -/
def mentionedOfItems : List Value → List String
  | [] => []
  | v :: vs => mentioned v ++ mentionedOfItems vs
  termination_by structural vs => vs

/-- The texts, their characters and the keys in entries. -/
def mentionedOfEntries : List (String × Value) → List String
  | [] => []
  | (k, v) :: rest => k :: mentioned v ++ mentionedOfEntries rest
  termination_by structural entries => entries

end

mutual

/-- A value mentions no more texts than it weighs. -/
theorem length_mentioned_le : ∀ v : Value, (mentioned v).length ≤ v.weight
  | .str s => by simp [mentioned, Value.weight, String.length_toList]
  | .list _ items => by
    have h := length_mentionedOfItems_le items
    simp only [mentioned, Value.weight]
    omega
  | .map _ entries => by
    have h := length_mentionedOfEntries_le entries
    simp only [mentioned, Value.weight]
    omega
  | .null | .bool _ | .num _ => by simp [mentioned]

theorem length_mentionedOfItems_le : ∀ vs : List Value,
    (mentionedOfItems vs).length ≤ Value.weightOfItems vs
  | [] => by simp [mentionedOfItems]
  | v :: vs => by
    have h := length_mentioned_le v
    have hrest := length_mentionedOfItems_le vs
    simp only [mentionedOfItems, Value.weightOfItems, List.length_append]
    omega

theorem length_mentionedOfEntries_le : ∀ entries : List (String × Value),
    (mentionedOfEntries entries).length ≤ Value.weightOfEntries entries
  | [] => by simp [mentionedOfEntries]
  | (k, v) :: rest => by
    have h := length_mentioned_le v
    have hrest := length_mentionedOfEntries_le rest
    simp only [mentionedOfEntries, Value.weightOfEntries, List.length_append, List.length_cons]
    omega

end

variable {t : String} {v x : Value}

theorem mem_mentioned_list {id : Ident} {items : List Value} :
    t ∈ mentioned (.list id items) ↔ ∃ v ∈ items, t ∈ mentioned v := by
  rw [mentioned]
  induction items with
  | nil => simp [mentionedOfItems]
  | cons v rest ih => simp [mentionedOfItems, ih]

/-- A map mentions its keys and what the values under them mention. -/
theorem mem_mentioned_map {id : Ident} {entries : List (String × Value)} :
    t ∈ mentioned (.map id entries) ↔
      ∃ k v, (k, v) ∈ entries ∧ (t = k ∨ t ∈ mentioned v) := by
  rw [mentioned]
  induction entries with
  | nil => simp [mentionedOfEntries]
  | cons entry rest ih =>
    obtain ⟨k, v⟩ := entry
    simp only [mentionedOfEntries, List.cons_append, List.mem_cons, List.mem_append, ih,
      Prod.mk.injEq, or_and_right, exists_or, and_assoc, exists_and_left, exists_eq_left, or_assoc]

/-! ## Parts of a value -/

theorem mentioned_of_mem_items {id : Ident} {items : List Value} (h : v ∈ items) :
    mentioned v ⊆ mentioned (.list id items) :=
  fun _ ht => mem_mentioned_list.mpr ⟨v, h, ht⟩

theorem mentioned_of_mem_entries {id : Ident} {entries : List (String × Value)} {k : String}
    (h : (k, v) ∈ entries) : mentioned v ⊆ mentioned (.map id entries) :=
  fun _ ht => mem_mentioned_map.mpr ⟨k, v, h, Or.inr ht⟩

theorem mentioned_ofList {vs : List Value} {texts : List String}
    (h : ∀ v ∈ vs, mentioned v ⊆ texts) : mentioned (.ofList vs) ⊆ texts := by
  intro t ht
  obtain ⟨v, hv, ht⟩ := mem_mentioned_list.mp ht
  exact h v hv ht

/-- What is directly inside of a value mentions nothing that the value does not. -/
theorem mentioned_children (h : x ∈ v.children) : mentioned x ⊆ mentioned v := by
  cases v with
  | map id entries =>
    obtain ⟨⟨k, x⟩, hx, rfl⟩ := List.mem_map.mp h
    exact mentioned_of_mem_entries hx
  | list id items => exact mentioned_of_mem_items h
  | null | bool | num | str => cases h

theorem mentioned_child? {segment : String} (h : v.child? segment = .ok (some x)) :
    mentioned x ⊆ mentioned v :=
  mentioned_children (Value.mem_children_of_child? h)

/-! ## Readings -/

theorem mentioned_collected {vs : List Value} (h : x ∈ Value.collected vs) :
    ∃ v ∈ vs, mentioned x ⊆ mentioned v := by
  obtain ⟨v, hv, hx⟩ := List.mem_flatMap.mp (List.mem_filter.mp h).1
  refine ⟨v, hv, ?_⟩
  cases v with
  | list id items => exact mentioned_of_mem_items hx
  | null | bool | num | str | map => exact List.mem_singleton.mp hx ▸ List.Subset.refl _

/-- The leaves of a value mention nothing that the value does not. -/
theorem mentioned_leaves : x ∈ v.leaves → mentioned x ⊆ mentioned v := by
  induction v using Value.induction with
  | scalar v hs =>
    intro h
    cases v <;> first | exact List.mem_singleton.mp h ▸ List.Subset.refl _ | cases hs
  | list id items =>
    intro h
    obtain ⟨v, hv, hx⟩ := mentioned_collected h
    exact List.Subset.trans hx (mentioned_of_mem_items hv)
  | map id entries ih =>
    intro h
    obtain ⟨k, v, he, hx⟩ := Value.mem_leaves_map h
    exact List.Subset.trans (ih k v he hx) (mentioned_of_mem_entries he)

/-- What a path leads to mentions nothing that the value does not. -/
theorem mentioned_read : ∀ {path : Path} {strict : Bool} {v found : Value},
    v.read path strict = .ok found → mentioned found ⊆ mentioned v
  | [], _, v, _, h => Except.ok.inj h ▸ List.Subset.refl _
  | segment :: rest, strict, v, found, h => by
    rw [Value.read] at h
    split at h
    · obtain rfl := Except.ok.inj h
      split
      · exact mentioned_ofList fun x hx => List.mem_singleton.mp hx ▸ List.Subset.refl _
      · exact List.nil_subset _
    split at h
    · split at h
      · obtain rfl := Except.ok.inj h
        exact mentioned_ofList fun x hx => mentioned_leaves hx
      · obtain ⟨each, heach, h⟩ := exists_of_bind_eq_ok h
        obtain rfl := Except.ok.inj h
        refine mentioned_ofList fun x hx => ?_
        obtain ⟨y, hy, hxy⟩ := mentioned_collected hx
        obtain ⟨child, hchild, hread⟩ := exists_mem_of_mem_mapM heach hy
        exact List.Subset.trans hxy
          (List.Subset.trans (mentioned_read hread) (mentioned_children hchild))
    · obtain ⟨child, hchild, h⟩ := exists_of_bind_eq_ok h
      cases child with
      | some inner => exact List.Subset.trans (mentioned_read h) (mentioned_child? hchild)
      | none =>
        obtain rfl := Except.ok.inj h
        split
        · exact List.nil_subset _
        · exact List.Subset.refl _

/-! ## Edges found -/

/-- The edge sets of a node mention nothing that the node does not. -/
theorem mentioned_edgeSets : ∀ {node : Value} {path : Path} {t : String} {set : Value},
    (t, set) ∈ edgeSets path node → mentioned set ⊆ mentioned node := by
  intro node
  induction node using Value.induction with
  | scalar v hs =>
    intro path t set h
    cases v <;> first | cases hs; done | cases h
  | list id items =>
    intro path t set h
    obtain ⟨-, rfl⟩ := Prod.mk.inj (List.mem_singleton.mp h)
    exact List.Subset.refl _
  | map id entries ih =>
    intro path t set h
    rw [edgeSets, edgeSetsOfEntries_eq] at h
    obtain ⟨⟨key, v⟩, he, h⟩ := List.mem_flatMap.mp h
    refine List.Subset.trans ?_ (mentioned_of_mem_entries he)
    dsimp only at h
    split at h
    · obtain ⟨-, rfl⟩ := Prod.mk.inj (List.mem_singleton.mp h)
      exact List.Subset.refl _
    · exact ih key v he h

/-- A text among the elements of an edge set is mentioned by it. -/
theorem mem_mentioned_of_mem_elements (h : .str t ∈ elements v) : t ∈ mentioned v := by
  cases v with
  | list id items => exact mem_mentioned_list.mpr ⟨_, h, by simp [mentioned]⟩
  | map id entries =>
    obtain ⟨k, hk, heq⟩ := List.mem_map.mp h
    obtain rfl := Value.str.inj heq
    obtain ⟨⟨k, v⟩, he, rfl⟩ := List.mem_map.mp hk
    exact mem_mentioned_map.mpr ⟨k, v, he, Or.inl rfl⟩
  | str s =>
    obtain ⟨c, hc, heq⟩ := List.mem_map.mp h
    obtain rfl := Value.str.inj heq
    exact List.mem_cons_of_mem _ (List.mem_map.mpr ⟨c, hc, rfl⟩)
  | null | bool | num => cases h

theorem mem_mentioned_of_mem_edgesIn (h : .str t ∈ Graph.edgesIn v) : t ∈ mentioned v := by
  cases v with
  | map id entries =>
    obtain ⟨⟨path, set⟩, hset, h⟩ := List.mem_flatMap.mp h
    exact mentioned_edgeSets hset (mem_mentioned_of_mem_elements h)
  | null => cases h
  | list | bool | num | str => exact mem_mentioned_of_mem_elements h

end EdgeMap

namespace Graph

open EdgeMap

variable {g : Graph} {direction : Direction}

/-- A text that a look-up finds is mentioned in the graph. -/
theorem mem_mentioned_of_edges {path : Path} {found : List Value}
    (h : g.edges path direction = .ok found) {t : String} (ht : .str t ∈ found) :
    t ∈ mentioned (g.view direction) := by
  obtain ⟨node, hread, h⟩ := exists_of_bind_eq_ok h
  obtain rfl := Except.ok.inj h
  exact mentioned_read hread (mem_mentioned_of_mem_edgesIn ht)

/-- Some look-up in the graph finds a text. -/
def Given (g : Graph) (direction : Direction) (t : String) : Prop :=
  ∃ path found, g.edges path direction = .ok found ∧ .str t ∈ found

/-- Look-ups find finitely many texts, no more than the graph mentions. -/
theorem finite_given (g : Graph) (direction : Direction) :
    {t | g.Given direction t}.Finite ∧
      {t | g.Given direction t}.ncard ≤ (mentioned (g.view direction)).length := by
  have hsub : {t | g.Given direction t} ⊆
      ((mentioned (g.view direction)).toFinset : Set String) := by
    rintro t ⟨path, found, hfound, ht⟩
    exact List.mem_toFinset.mpr (mem_mentioned_of_edges hfound ht)
  have hfinite := Finset.finite_toSet (mentioned (g.view direction)).toFinset
  refine ⟨hfinite.subset hsub, (Set.ncard_le_ncard hsub hfinite).trans ?_⟩
  rw [Set.ncard_coe_finset]
  exact List.toFinset_card_le _

end Graph

end RuleTree
