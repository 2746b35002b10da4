import RuleTree.Path.Read
import RuleTree.Proofs.Value.Keys
/-!
# Wildcards at the end of a path

A wildcard at the end of a path goes on through nested maps, but a list on the way is opened once
and no further. So what it finds need not be scalars, and it loses none: opened all the way, it is
the list of the scalars of the value in the order of the document (`Value.flatMap_scalars_leaves`).
It is that list itself exactly if no list that maps lead to holds a map or a list with more than
scalars in it (`Value.read_wildcard_scalars`).
-/

namespace RuleTree.Value

/-! ## Scalars of a value -/

mutual

/-- The scalars in a value that are not null, in the order of the document. -/
def scalars : Value → List Value
  | null => []
  | list _ items => scalarsOfItems items
  | map _ entries => scalarsOfEntries entries
  | v => [v]
  termination_by structural v => v

/-- The scalars in items that are not null. -/
def scalarsOfItems : List Value → List Value
  | [] => []
  | v :: rest => scalars v ++ scalarsOfItems rest
  termination_by structural items => items

/-- The scalars in entries that are not null. -/
def scalarsOfEntries : List (String × Value) → List Value
  | [] => []
  | (_, v) :: rest => scalars v ++ scalarsOfEntries rest
  termination_by structural entries => entries

end

variable {v w : Value} {id : Ident} {items : List Value} {entries : List (String × Value)}

theorem scalars_list (id : Ident) (items : List Value) :
    (list id items).scalars = items.flatMap scalars := by
  induction items with
  | nil => rfl
  | cons v rest ih => rw [List.flatMap_cons, ← ih]; rfl

theorem scalars_map (id : Ident) (entries : List (String × Value)) :
    (map id entries).scalars = entries.flatMap fun e => e.2.scalars := by
  induction entries with
  | nil => rfl
  | cons e rest ih => rw [List.flatMap_cons, ← ih]; rfl

theorem scalars_of_isScalar (hs : v.isScalar = true) (hn : v.isNull = false) : v.scalars = [v] := by
  cases v with
  | null => cases hn
  | list | map => cases hs
  | _ => rfl

/-- The scalars inside of a value are scalars. -/
theorem isScalar_of_mem_scalars (h : w ∈ v.scalars) : w.isScalar = true := by
  induction v using Value.induction with
  | scalar v hs =>
    cases v with
    | null => cases h
    | list | map => cases hs
    | _ => rw [List.mem_singleton.mp h]; rfl
  | list id items ih =>
    rw [scalars_list] at h
    obtain ⟨v, hv, hw⟩ := List.mem_flatMap.mp h
    exact ih v hv hw
  | map id entries ih =>
    rw [scalars_map] at h
    obtain ⟨e, he, hw⟩ := List.mem_flatMap.mp h
    exact ih e.1 e.2 he hw

/-- Scalars that are not null hold nothing but themselves. -/
theorem flatMap_scalars (hs : ∀ v ∈ items, v.isScalar = true) (hn : ∀ v ∈ items, v.isNull = false) :
    items.flatMap scalars = items := by
  rw [List.flatMap_congr fun v hv => scalars_of_isScalar (hs v hv) (hn v hv),
    List.flatMap_singleton']

theorem flatMap_scalars_opened (v : Value) : v.opened.flatMap scalars = v.scalars := by
  cases v with
  | list id items => exact (scalars_list id items).symm
  | _ => simp [opened]

theorem flatMap_scalars_filter (found : List Value) :
    (found.filter fun v => !v.isNull).flatMap scalars = found.flatMap scalars := by
  induction found with
  | nil => rfl
  | cons v rest ih => cases v <;> simp_all [isNull, scalars]

theorem flatMap_scalars_collected (found : List Value) :
    (collected found).flatMap scalars = found.flatMap scalars := by
  rw [collected, flatMap_scalars_filter, List.flatMap_assoc]
  exact List.flatMap_congr fun v _ => flatMap_scalars_opened v

/-! ## Leaves -/

theorem leaves_scalar (hs : v.isScalar = true) : v.leaves = [v] := by
  cases v with
  | list | map => cases hs
  | _ => rfl

theorem leavesOfEntries_eq (entries : List (String × Value)) :
    leavesOfEntries entries = entries.flatMap fun e => e.2.leaves := by
  induction entries with
  | nil => rfl
  | cons e rest ih => rw [leavesOfEntries, ih, List.flatMap_cons]

theorem leaves_map (id : Ident) (entries : List (String × Value)) :
    (map id entries).leaves = (entries.flatMap fun e => e.2.leaves).filter fun v => !v.isNull := by
  rw [leaves, leavesOfEntries_eq]

theorem mem_leaves_map (h : w ∈ (map id entries).leaves) :
    ∃ key v, (key, v) ∈ entries ∧ w ∈ v.leaves := by
  rw [leaves_map] at h
  obtain ⟨⟨key, v⟩, he, hw⟩ := List.mem_flatMap.mp (List.mem_filter.mp h).1
  exact ⟨key, v, he, hw⟩

/-- Every wildcard at the end of a path lists the leaves. -/
theorem read_wildcard (v : Value) (strict : Bool) :
    v.read [Path.wildcard] strict = .ok (.ofList v.leaves) := by
  cases hs : v.isScalar with
  | true => rw [read_scalar_cons hs, if_pos ⟨rfl, rfl⟩, leaves_scalar hs]
  | false =>
    rw [read, if_neg (by simp [hs]), if_pos rfl]
    rfl

/-- No scalar is lost and none is out of its place. -/
theorem flatMap_scalars_leaves (v : Value) : v.leaves.flatMap scalars = v.scalars := by
  induction v using Value.induction with
  | scalar v hs => rw [leaves_scalar hs, List.flatMap_singleton]
  | list id items => rw [leaves, flatMap_scalars_collected, scalars_list]
  | map id entries ih =>
    rw [leaves_map, flatMap_scalars_filter, List.flatMap_assoc, scalars_map]
    exact List.flatMap_congr fun e he => ih e.1 e.2 he

theorem isNull_of_mem_leaves (hv : v.isNull = false) (h : w ∈ v.leaves) : w.isNull = false := by
  cases v with
  | list id items => simpa using (List.mem_filter.mp h).2
  | map id entries => simpa using (List.mem_filter.mp h).2
  | _ => rwa [List.mem_singleton.mp h]

/-! ## Shallow values -/

/-- Every list that maps lead to holds scalars and lists of scalars only. -/
inductive Shallow : Value → Prop
  | scalar {v : Value} (hs : v.isScalar = true) : Shallow v
  | list {id : Ident} {items : List Value}
      (opened : ∀ v ∈ items, ∀ w ∈ v.opened, w.isScalar = true) : Shallow (list id items)
  | map {id : Ident} {entries : List (String × Value)}
      (below : ∀ key v, (key, v) ∈ entries → Shallow v) : Shallow (map id entries)

/-- A list is shallow if its items, opened once, are of scalars. -/
theorem shallow_list :
    (list id items).Shallow ↔ ∀ v ∈ items, ∀ w ∈ v.opened, w.isScalar = true := by
  constructor
  · rintro (hs | h | -)
    · cases hs
    · exact h
  · exact .list

/-- A map is shallow if the values in it are. -/
theorem shallow_map : (map id entries).Shallow ↔ ∀ key v, (key, v) ∈ entries → v.Shallow := by
  constructor
  · rintro (hs | - | h)
    · cases hs
    · exact h
  · exact .map

/-- Leaving nulls out leaves out no list or map. -/
theorem forall_isScalar_filter {found : List Value} :
    (∀ w ∈ found.filter fun v => !v.isNull, w.isScalar = true) ↔
      ∀ w ∈ found, w.isScalar = true := by
  refine ⟨fun h w hw => ?_, fun h w hw => h w (List.mem_filter.mp hw).1⟩
  cases w with
  | list | map => exact h _ (List.mem_filter.mpr ⟨hw, rfl⟩)
  | _ => rfl

/-- The leaves of a shallow value are scalars, and those of no other are. -/
theorem forall_isScalar_leaves (v : Value) : (∀ w ∈ v.leaves, w.isScalar = true) ↔ v.Shallow := by
  induction v using Value.induction with
  | scalar v hs => simp [leaves_scalar hs, hs, Shallow.scalar hs]
  | list id items =>
    rw [leaves, collected, forall_isScalar_filter, shallow_list]
    simp only [List.mem_flatMap, forall_exists_index, and_imp]
    exact forall_comm.trans (forall_congr' fun v => forall_comm)
  | map id entries ih =>
    rw [leaves_map, forall_isScalar_filter, shallow_map]
    simp only [List.mem_flatMap, forall_exists_index, and_imp]
    constructor
    · exact fun h key v he => (ih key v he).mp fun w hw => h w (key, v) he hw
    · exact fun h w e he hw => (ih e.1 e.2 he).mpr (h e.1 e.2 he) w hw

instance : DecidablePred Shallow := fun v => decidable_of_iff _ (forall_isScalar_leaves v)

/-- A wildcard finds leaves that hold the scalars of a value in the order of the document. They are
these scalars exactly if the value is shallow, and then alone no list and no map is among them. -/
theorem read_wildcard_scalars (hv : v.isNull = false) (strict : Bool) :
    ∃ found, v.read (Path.ofText "*") strict = .ok (.ofList found) ∧
      found.flatMap scalars = v.scalars ∧ (found = v.scalars ↔ v.Shallow) ∧
      ((∀ w ∈ found, w.isScalar = true) ↔ v.Shallow) := by
  have hleaves := forall_isScalar_leaves v
  refine ⟨v.leaves, read_wildcard v strict, flatMap_scalars_leaves v, ⟨fun h => ?_, fun h => ?_⟩,
    hleaves⟩
  · exact hleaves.mp fun w hw => isScalar_of_mem_scalars (h ▸ hw)
  · rw [← flatMap_scalars_leaves v]
    exact (flatMap_scalars (hleaves.mpr h) fun w hw => isNull_of_mem_leaves hv hw).symm

/-- Maps that lead to a list of scalars with a list of scalars in it, and to a null. -/
def tariffs : Value := .ofEntries [
  ("rates", .ofEntries [("bands", .ofList [.int 6, .ofList [.int 15, .int 24]]), ("cap", .null)]),
  ("year", .int 2024)]

theorem read_wildcard_scalars_of_tariffs : tariffs.isNull = false ∧
    ∃ found, tariffs.read (Path.ofText "*") true = .ok (.ofList found) ∧
      found = [.int 6, .int 15, .int 24, .int 2024] := by
  obtain ⟨found, hread, -, hfound, -⟩ := read_wildcard_scalars (v := tariffs) rfl true
  exact ⟨rfl, found, hread, hfound.mpr (by decide)⟩

/-- A list of maps on the way. -/
def members : Value := .ofEntries [("a", .ofList [.ofEntries [("b", .int 1)]])]

/-- The map in the list is found in place of the scalar in it. -/
theorem read_wildcard_members : members.isMap = true ∧ members.scalars = [.int 1] ∧
    members.read (Path.ofText "*") true = .ok (.ofList [.ofEntries [("b", .int 1)]]) ∧
    members.read (Path.ofText "*") true ≠ .ok (.ofList members.scalars) := by
  refine ⟨rfl, rfl, rfl, fun h => ?_⟩
  cases h

end RuleTree.Value
