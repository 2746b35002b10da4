import RuleTree.Proofs.Value.Keys
import RuleTree.Value.Numbered
import Mathlib.Data.List.Nodup
import Mathlib.Data.List.Range
/-!
# Containers of a value

`Value.idents` lists the identities of the containers in a value, in the order of the document.
Numbering gives the containers of an input consecutive numbers (`Value.idents_numbered`), so none
stands in it twice (`Value.nodup_idents_numbered`).
-/

namespace RuleTree

/-- Whether it is a container that was built on the way. -/
def Ident.isMade : Ident → Bool
  | made _ => true
  | _ => false

theorem Ident.ne_made {i : Ident} (h : i.isMade = false) (n : Nat) : i ≠ .made n := by
  rintro rfl
  cases h

namespace Value

mutual

/-- The identities of the containers in a value. -/
def idents : Value → List Ident
  | list id items => id :: identsOfItems items
  | map id entries => id :: identsOfEntries entries
  | _ => []
  termination_by structural v => v

/-- The identities of the containers in items. -/
def identsOfItems : List Value → List Ident
  | [] => []
  | v :: rest => idents v ++ identsOfItems rest
  termination_by structural items => items

/-- The identities of the containers in entries. -/
def identsOfEntries : List (String × Value) → List Ident
  | [] => []
  | (_, v) :: rest => idents v ++ identsOfEntries rest
  termination_by structural entries => entries

end

variable {v w : Value}

theorem idents_list (id : Ident) (items : List Value) :
    (list id items).idents = id :: items.flatMap idents := by
  have hitems : identsOfItems items = items.flatMap idents := by
    induction items with
    | nil => rfl
    | cons v rest ih => rw [identsOfItems, ih, List.flatMap_cons]
  rw [idents, hitems]

theorem idents_map (id : Ident) (entries : List (String × Value)) :
    (map id entries).idents = id :: entries.flatMap fun e => e.2.idents := by
  have hentries : identsOfEntries entries = entries.flatMap fun e => e.2.idents := by
    induction entries with
    | nil => rfl
    | cons e rest ih => rw [identsOfEntries, ih, List.flatMap_cons]
  rw [idents, hentries]

/-- The containers directly inside of a value are among its own, in order. -/
theorem idents_children (v : Value) : (v.children.flatMap idents).Sublist v.idents := by
  cases v with
  | list id items => exact idents_list id items ▸ List.sublist_cons_self ..
  | map id entries =>
    rw [idents_map, children, Entries.values, List.flatMap_map]
    exact List.sublist_cons_self ..
  | _ => exact List.nil_sublist _

theorem idents_subset_of_mem_children (h : w ∈ v.children) : w.idents ⊆ v.idents :=
  fun _ hi => (idents_children v).subset (List.mem_flatMap.mpr ⟨w, h, hi⟩)

/-! ## Numbering -/

section Numbering

variable {ident : Nat → Ident} {n m m' : Nat} {ids ids' : List Ident}

/-- Identities are those of the numbers from one number on, up to the next free one. -/
def Consecutive (ident : Nat → Ident) (n : Nat) (ids : List Ident) (next : Nat) : Prop :=
  ∃ k, next = n + k ∧ ids = (List.range' n k).map ident

theorem Consecutive.nil : Consecutive ident n [] n := ⟨0, rfl, rfl⟩

theorem Consecutive.cons (h : Consecutive ident (n + 1) ids m) :
    Consecutive ident n (ident n :: ids) m := by
  obtain ⟨k, rfl, rfl⟩ := h
  exact ⟨k + 1, by omega, by rw [List.range'_succ, List.map_cons]⟩

theorem Consecutive.append (h : Consecutive ident n ids m) (h' : Consecutive ident m ids' m') :
    Consecutive ident n (ids ++ ids') m' := by
  obtain ⟨k, rfl, rfl⟩ := h
  obtain ⟨k', rfl, rfl⟩ := h'
  exact ⟨k + k', Nat.add_assoc .., by rw [← List.range'_append_1, List.map_append]⟩

variable (ident)

mutual

theorem idents_numbered : ∀ (v : Value) (n : Nat),
    Consecutive ident n (v.numbered ident n).1.idents (v.numbered ident n).2
  | list _ items, n => (idents_numberedItems items (n + 1)).cons
  | map _ entries, n => (idents_numberedEntries entries (n + 1)).cons
  | null, _ | bool _, _ | num _, _ | str _, _ => .nil

theorem idents_numberedItems : ∀ (items : List Value) (n : Nat), Consecutive ident n
    (identsOfItems (numberedItems ident items n).1) (numberedItems ident items n).2
  | [], _ => .nil
  | v :: rest, n => (idents_numbered v n).append (idents_numberedItems rest _)

theorem idents_numberedEntries : ∀ (entries : List (String × Value)) (n : Nat), Consecutive ident n
    (identsOfEntries (numberedEntries ident entries n).1) (numberedEntries ident entries n).2
  | [], _ => .nil
  | (_, v) :: rest, n => (idents_numbered v n).append (idents_numberedEntries rest _)

end

variable {ident}

/-- Every container of an input has its own identity. -/
theorem nodup_idents_numbered (hident : ident.Injective) (v : Value) (n : Nat) :
    (v.numbered ident n).1.idents.Nodup := by
  obtain ⟨k, -, hids⟩ := idents_numbered ident v n
  exact hids ▸ List.Nodup.map hident List.nodup_range'

end Numbering

end Value

end RuleTree
