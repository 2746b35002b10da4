import RuleTree.Value.Basic
import Mathlib.Data.List.Basic
/-!
# Entries and keys

What a look-up finds is an entry, and with distinct keys every entry is found
(`Entries.get?_of_mem`). Binding a key keeps the keys distinct (`Entries.nodup_keys_put`).
`Value.induction` is the induction over a value with its items and entries, and
`Value.distinctKeys` tells whether no map in a value has a key twice, as in every value
that is handed in or read from a file.
-/

namespace RuleTree

/-! ## Entries -/

namespace Entries

variable {α : Type} {key : String} {entries : List (String × α)}

theorem mem_of_get? {v : α} (h : get? key entries = some v) : (key, v) ∈ entries := by
  induction entries with
  | nil => cases h
  | cons e rest ih =>
    obtain ⟨k, w⟩ := e
    unfold get? at h
    split_ifs at h with hk
    · obtain rfl := Option.some.inj h
      simp [hk]
    · exact List.mem_cons_of_mem _ (ih h)

theorem key_mem_of_mem {v : α} (h : (key, v) ∈ entries) : key ∈ keys entries :=
  List.mem_map.mpr ⟨(key, v), h, rfl⟩

/-- With distinct keys a look-up finds every entry. -/
theorem get?_of_mem {v : α} (hn : (keys entries).Nodup) (h : (key, v) ∈ entries) :
    get? key entries = some v := by
  induction entries with
  | nil => cases h
  | cons e rest ih =>
    obtain ⟨k, w⟩ := e
    obtain ⟨hk, hrest⟩ := List.nodup_cons.mp hn
    rcases List.mem_cons.mp h with he | hm
    · obtain ⟨rfl, rfl⟩ := Prod.mk.inj he
      simp [get?]
    · have hne : k ≠ key := fun hkk => hk (hkk ▸ key_mem_of_mem hm)
      rw [get?, if_neg hne]
      exact ih hrest hm

/-- An entry after a binding is the new one or was there before. -/
theorem mem_put {value v : α} {k : String} (h : (k, v) ∈ put key value entries) :
    (k = key ∧ v = value) ∨ (k, v) ∈ entries := by
  induction entries with
  | nil => simpa [put] using h
  | cons e rest ih =>
    obtain ⟨k', w⟩ := e
    unfold put at h
    split_ifs at h with hk
    · rcases List.mem_cons.mp h with he | hm
      · exact Or.inl ⟨(Prod.mk.inj he).1.trans hk, (Prod.mk.inj he).2⟩
      · exact Or.inr (List.mem_cons_of_mem _ hm)
    · rcases List.mem_cons.mp h with he | hm
      · exact Or.inr (he ▸ List.mem_cons_self ..)
      · exact (ih hm).imp_right (List.mem_cons_of_mem _)

/-- No key is twice in a map when a value is put there. -/
theorem nodup_keys_put (value : α) (hn : (keys entries).Nodup) :
    (keys (put key value entries)).Nodup := by
  induction entries with
  | nil => simp [put, keys]
  | cons e rest ih =>
    obtain ⟨k, w⟩ := e
    obtain ⟨hk, hrest⟩ := List.nodup_cons.mp hn
    unfold put
    split_ifs with hkey
    · exact hn
    · refine List.nodup_cons.mpr ⟨fun hmem => ?_, ih hrest⟩
      obtain ⟨⟨k', v⟩, hm, rfl⟩ := List.mem_map.mp hmem
      rcases mem_put hm with ⟨rfl, -⟩ | hm
      · exact hkey rfl
      · exact hk (key_mem_of_mem hm)

end Entries

/-! ## Values -/

namespace Value

/-- Induction over a value, with the hypothesis for every item and every entry. -/
@[elab_as_elim]
theorem induction {motive : Value → Prop} (scalar : ∀ v, v.isScalar = true → motive v)
    (list : ∀ id items, (∀ v ∈ items, motive v) → motive (.list id items))
    (map : ∀ id entries, (∀ key v, (key, v) ∈ entries → motive v) → motive (.map id entries))
    (v : Value) : motive v := by
  refine Value.rec (motive_1 := motive) (motive_2 := fun items => ∀ v ∈ items, motive v)
    (motive_3 := fun entries => ∀ key v, (key, v) ∈ entries → motive v)
    (motive_4 := fun e => motive e.2) (scalar _ rfl) (fun _ => scalar _ rfl)
    (fun _ => scalar _ rfl) (fun _ => scalar _ rfl) list map ?_ ?_ ?_ ?_ (fun _ _ h => h) v
  · intro v hv
    cases hv
  · intro first rest hfirst hrest v hv
    rcases List.mem_cons.mp hv with rfl | hv
    · exact hfirst
    · exact hrest v hv
  · intro key v hv
    cases hv
  · intro first rest hfirst hrest key v hv
    rcases List.mem_cons.mp hv with rfl | hv
    · exact hfirst
    · exact hrest key v hv

mutual

/-- Whether no map in the value has a key twice. -/
def distinctKeys : Value → Bool
  | list _ items => distinctKeysOfItems items
  | map _ entries => decide (Entries.keys entries).Nodup && distinctKeysOfEntries entries
  | _ => true
  termination_by structural v => v

/-- Whether no map in the items has a key twice. -/
def distinctKeysOfItems : List Value → Bool
  | [] => true
  | v :: rest => distinctKeys v && distinctKeysOfItems rest
  termination_by structural items => items

/-- Whether no map in the values of the entries has a key twice. -/
def distinctKeysOfEntries : List (String × Value) → Bool
  | [] => true
  | (_, v) :: rest => distinctKeys v && distinctKeysOfEntries rest
  termination_by structural entries => entries

end

/-- The keys in each item are apart. -/
theorem distinctKeys_of_mem_items :
    ∀ {items : List Value}, distinctKeysOfItems items = true → ∀ v ∈ items, v.distinctKeys = true
  | [], _, _, hv => by cases hv
  | first :: rest, h, v, hv => by
    obtain ⟨hfirst, hrest⟩ := (Bool.and_eq_true_iff).mp h
    rcases List.mem_cons.mp hv with rfl | hv
    · exact hfirst
    · exact distinctKeys_of_mem_items hrest v hv

/-- The keys in the value of each entry are apart. -/
theorem distinctKeys_of_mem_entries :
    ∀ {entries : List (String × Value)}, distinctKeysOfEntries entries = true →
      ∀ key v, (key, v) ∈ entries → v.distinctKeys = true
  | [], _, _, _, hv => by cases hv
  | (_, first) :: rest, h, key, v, hv => by
    obtain ⟨hfirst, hrest⟩ := (Bool.and_eq_true_iff).mp h
    rcases List.mem_cons.mp hv with he | hv
    · obtain ⟨-, rfl⟩ := Prod.mk.inj he
      exact hfirst
    · exact distinctKeys_of_mem_entries hrest key v hv

/-- The keys of a map are distinct, and so are those in its values. -/
theorem distinctKeys_map {id : Ident} {entries : List (String × Value)}
    (h : (map id entries).distinctKeys = true) :
    (Entries.keys entries).Nodup ∧ ∀ key v, (key, v) ∈ entries → v.distinctKeys = true := by
  obtain ⟨hn, hrest⟩ := (Bool.and_eq_true_iff).mp h
  exact ⟨of_decide_eq_true hn, distinctKeys_of_mem_entries hrest⟩

theorem distinctKeys_list {id : Ident} : ∀ {items : List Value},
    (∀ v ∈ items, v.distinctKeys = true) → (list id items).distinctKeys = true
  | [], _ => rfl
  | v :: rest, h => by
    have hrest : (list id rest).distinctKeys = true :=
      distinctKeys_list fun w hw => h w (List.mem_cons_of_mem _ hw)
    exact Bool.and_eq_true_iff.mpr ⟨h v (by simp), hrest⟩

theorem distinctKeysOfEntries_of_forall : ∀ {entries : List (String × Value)},
    (∀ key v, (key, v) ∈ entries → v.distinctKeys = true) → distinctKeysOfEntries entries = true
  | [], _ => rfl
  | (key, v) :: rest, h => by
    have hrest := distinctKeysOfEntries_of_forall fun k w hw => h k w (List.mem_cons_of_mem _ hw)
    exact Bool.and_eq_true_iff.mpr ⟨h key v (by simp), hrest⟩

theorem distinctKeys_map_iff {id : Ident} {entries : List (String × Value)} :
    (map id entries).distinctKeys = true ↔
      (Entries.keys entries).Nodup ∧ ∀ key v, (key, v) ∈ entries → v.distinctKeys = true :=
  ⟨distinctKeys_map, fun h => Bool.and_eq_true_iff.mpr
    ⟨decide_eq_true h.1, distinctKeysOfEntries_of_forall h.2⟩⟩

/-- The keys in a map stay apart when a value is put there. -/
theorem distinctKeys_put {id : Ident} {key : String} {entries : List (String × Value)} {v : Value}
    (h : (map id entries).distinctKeys = true) (hv : v.distinctKeys = true) (id' : Ident) :
    (map id' (Entries.put key v entries)).distinctKeys = true := by
  obtain ⟨hn, hbelow⟩ := distinctKeys_map h
  refine distinctKeys_map_iff.mpr ⟨Entries.nodup_keys_put v hn, fun k w hm => ?_⟩
  rcases Entries.mem_put hm with ⟨-, rfl⟩ | hm
  · exact hv
  · exact hbelow k w hm

/-! ## Children -/

/-- An item is found at the position that the segment writes. -/
theorem child?_list {id : Ident} {items : List Value} {segment : String} {inner : Value}
    (h : (list id items).child? segment = .ok (some inner)) :
    ∃ n, Text.readIndex segment.toList = .position n ∧ items[n]? = some inner := by
  rw [child?] at h
  cases hi : Text.readIndex segment.toList with
  | notDigits => rw [hi] at h; cases h
  | malformed => rw [hi] at h; cases h
  | position n =>
    rw [hi] at h
    exact ⟨n, rfl, Except.ok.inj h⟩

/-- A child at a segment is directly inside. -/
theorem mem_children_of_child? {v inner : Value} {segment : String}
    (h : v.child? segment = .ok (some inner)) : inner ∈ v.children := by
  cases v with
  | list id items =>
    obtain ⟨n, -, hget⟩ := child?_list h
    exact List.mem_of_getElem? hget
  | map id entries => exact List.mem_map.mpr ⟨_, Entries.mem_of_get? (Except.ok.inj h), rfl⟩
  | _ => cases h

/-- There is a child or none, at a segment that is no malformed position. -/
theorem exists_child? {segment : String} (h : Text.readIndex segment.toList ≠ .malformed)
    (v : Value) : ∃ found, v.child? segment = .ok found := by
  cases v with
  | list id items =>
    rw [child?]
    cases hi : Text.readIndex segment.toList with
    | notDigits => exact ⟨none, rfl⟩
    | malformed => exact absurd hi h
    | position n => exact ⟨items[n]?, rfl⟩
  | _ => exact ⟨_, rfl⟩

theorem exists_map_of_isMap {v : Value} (h : v.isMap = true) :
    ∃ id entries, v = .map id entries := by
  cases v with
  | map id entries => exact ⟨id, entries, rfl⟩
  | _ => cases h

end Value

end RuleTree
