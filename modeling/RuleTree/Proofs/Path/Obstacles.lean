import RuleTree.Proofs.Path.Lens
/-!
# Writes that fail

A write fails if and only if the path leads through something else than a map
(`Value.write_eq_error_iff`). A map that is made on the way is empty, so there is no such obstacle
below it (`Value.exists_write_empty`), and a write in place that fails has made none
(`Value.attempt_of_error`).
-/

namespace RuleTree

/-! ## Entries bound to what they are -/

namespace Entries

variable {α : Type} {key : String} {v : α} {entries : List (String × α)}

/-- Putting what is there changes nothing. -/
theorem put_of_get? (h : get? key entries = some v) : put key v entries = entries := by
  induction entries with
  | nil => cases h
  | cons e rest ih =>
    obtain ⟨k, w⟩ := e
    unfold get? at h
    split_ifs at h with hk
    · rw [put, if_pos hk, Option.some.inj h]
    · rw [put, if_neg hk, ih h]

theorem putIfNew_of_get? (h : get? key entries = some v) (value : α) :
    putIfNew key value entries = entries := by
  rw [putIfNew, h]
  rfl

theorem get?_putIfNew (key : String) (value : α) (entries : List (String × α)) :
    get? key (putIfNew key value entries) = some ((get? key entries).getD value) := by
  cases h : get? key entries with
  | some v => rw [putIfNew_of_get? h, h]; rfl
  | none => rw [putIfNew, h]; exact get?_put_self ..

/-- A value put under a key is there whatever stood there before. -/
theorem put_putIfNew (key : String) (v value : α) (entries : List (String × α)) :
    put key v (putIfNew key value entries) = put key v entries := by
  unfold putIfNew
  split_ifs
  · rfl
  · exact put_put ..

end Entries

namespace Value

variable {value data root : Value} {path : Path}

/-! ## Obstacles -/

/-- The value that a path leads to by keys, from map to map. -/
def atKeys? : Path → Value → Option Value
  | [], v => some v
  | segment :: rest, map _ entries => (Entries.get? segment entries).bind (atKeys? rest)
  | _, _ => none

/-- Nothing is in the way below an empty map. -/
theorem exists_write_empty (value : Value) : ∀ (path : Path) (id : Ident),
    ∃ root, write value path (.map id []) = .ok root
  | [], _ => ⟨value, rfl⟩
  | segment :: rest, id => by
    obtain ⟨inner, hinner⟩ := exists_write_empty value rest (.made 0)
    exact ⟨.map id (Entries.put segment inner []), write_cons hinner⟩

variable {segment : String} {rest : Path} {e : WriteError}

theorem write_of_not_isMap (h : data.isMap = false) :
    write value (segment :: rest) data = .error ⟨data.typeName, segment :: rest⟩ := by
  cases data with
  | map => cases h
  | _ => rfl

theorem atKeys?_of_not_isMap (h : data.isMap = false) : data.atKeys? (segment :: rest) = none := by
  cases data with
  | map => cases h
  | _ => rfl

/-- Below a segment of a map a write fails in the value that stands there. -/
theorem write_map_eq_error_iff {id : Ident} {entries : List (String × Value)} :
    write value (segment :: rest) (.map id entries) = .error e ↔
      ∃ inner, Entries.get? segment entries = some inner ∧ write value rest inner = .error e := by
  constructor
  · intro h
    have hbelow : write value rest ((Entries.get? segment entries).getD (ofEntries [])) =
        .error e := by
      rcases of_bind_eq_error h with hbelow | ⟨inner, -, h⟩
      · exact hbelow
      · cases h
    cases hget : Entries.get? segment entries with
    | some inner =>
      rw [hget] at hbelow
      exact ⟨inner, rfl, hbelow⟩
    | none =>
      obtain ⟨root, hroot⟩ := exists_write_empty value rest (.made 0)
      rw [hget, Option.getD_none, ofEntries, hroot] at hbelow
      cases hbelow
  · rintro ⟨inner, hget, hinner⟩
    rw [write, hget, Option.getD_some, hinner]
    rfl

/-- A write fails at the value on its path that is no map, and says which type that has and what
was left of the path. -/
theorem write_eq_error_iff : ∀ {path : Path} {data : Value},
    write value path data = .error e ↔ ∃ front v, path = front ++ e.rest ∧ e.rest ≠ [] ∧
      data.atKeys? front = some v ∧ v.isMap = false ∧ e.typeName = v.typeName
  | [], data => by
    constructor
    · intro h
      cases h
    · rintro ⟨front, v, hpath, hrest, -⟩
      exact absurd (List.append_eq_nil_iff.mp hpath.symm).2 hrest
  | segment :: rest, data => by
    cases hmap : data.isMap with
    | false =>
      rw [write_of_not_isMap hmap]
      constructor
      · intro h
        obtain rfl := Except.error.inj h
        exact ⟨[], data, rfl, by simp, rfl, hmap, rfl⟩
      · rintro ⟨front, v, hpath, -, hv, -, hname⟩
        cases front with
        | nil =>
          obtain rfl : data = v := Option.some.inj hv
          rw [hpath, List.nil_append, ← hname]
        | cons => rw [atKeys?_of_not_isMap hmap] at hv; cases hv
    | true =>
      obtain ⟨id, entries, rfl⟩ := exists_map_of_isMap hmap
      rw [write_map_eq_error_iff]
      constructor
      · rintro ⟨inner, hget, hinner⟩
        obtain ⟨front, v, rfl, hrest, hv, hobstacle⟩ := write_eq_error_iff.mp hinner
        refine ⟨segment :: front, v, rfl, hrest, ?_, hobstacle⟩
        rw [atKeys?, hget]
        exact hv
      · rintro ⟨front, v, hpath, hrest, hv, hobstacle, hname⟩
        cases front with
        | nil =>
          obtain rfl := Option.some.inj hv
          cases hobstacle
        | cons first front =>
          obtain ⟨rfl, hbelow⟩ := List.cons.inj hpath
          obtain ⟨inner, hget, hv⟩ := Option.bind_eq_some_iff.mp hv
          have hinner := write_eq_error_iff.mpr ⟨front, v, hbelow, hrest, hv, hobstacle, hname⟩
          exact ⟨inner, hget, hinner⟩

/-! ## Writes in place -/

/-- A write in place gives what a write gives. It is left in the data, unless the path is empty. -/
theorem attempt_of_ok : ∀ {path : Path} {data root : Value}, write value path data = .ok root →
    attempt value path data = ⟨.ok root, if path = [] then data else root⟩
  | [], data, root, h => by
    obtain rfl := Except.ok.inj h
    rfl
  | segment :: rest, _, _, h => by
    obtain ⟨id, entries, inner, rfl, hinner, rfl⟩ := of_write_cons h
    have hbelow := attempt_of_ok hinner
    rw [attempt]
    simp only [Entries.get?_putIfNew, Option.getD_some, hbelow, Entries.put_put,
      Entries.put_putIfNew]
    rfl

/-- A write in place that fails leaves the data as it was. -/
theorem attempt_of_error : ∀ {path : Path} {data : Value}, write value path data = .error e →
    attempt value path data = ⟨.error e, data⟩
  | segment :: rest, data, h => by
    cases hmap : data.isMap with
    | false =>
      rw [write_of_not_isMap hmap] at h
      obtain rfl := Except.error.inj h
      cases data with
      | map => cases hmap
      | _ => rfl
    | true =>
      obtain ⟨id, entries, rfl⟩ := exists_map_of_isMap hmap
      obtain ⟨inner, hget, hinner⟩ := write_map_eq_error_iff.mp h
      -- the value in the way stands below an entry that was there before
      have hbelow := attempt_of_error hinner
      rw [attempt]
      simp only [Entries.putIfNew_of_get? hget, hget, Option.getD_some, hbelow,
        Entries.put_of_get? hget]

theorem outcome_attempt (value data : Value) (path : Path) :
    (attempt value path data).outcome = write value path data := by
  cases h : write value path data with
  | ok root => rw [attempt_of_ok h]
  | error e => rw [attempt_of_error h]

/-- A store is a write in place. -/
theorem store_eq_attempt (value data : Value) (path : Path) :
    store value (some path) data = (attempt value path data).outcome.map fun result =>
      ⟨result, (attempt value path data).data⟩ := by
  rw [outcome_attempt]
  cases h : write value path data with
  | ok root =>
    rw [attempt_of_ok h]
    cases path with
    | nil =>
      obtain rfl := Except.ok.inj h
      rfl
    | cons segment rest =>
      simp [store, h]
      rfl
  | error e =>
    cases path with
    | nil => cases h
    | cons segment rest =>
      simp [store, h]
      rfl

/-- A store fails if and only if some part of the path, but not the whole of it, leads by keys to
something else than a map. A store is a write in place, and if it fails, that leaves the data as it
was. -/
theorem store_atomic (value data : Value) (path : Path) :
    ((∃ e, store value (some path) data = .error e) ↔
      ∃ front v, front <+: path ∧ front ≠ path ∧ data.atKeys? front = some v ∧
        v.isMap = false) ∧
    store value (some path) data = (attempt value path data).outcome.map (fun result =>
      ⟨result, (attempt value path data).data⟩) ∧
    ∀ e, store value (some path) data = .error e → (attempt value path data).data = data := by
  have hwrite : ∀ e, store value (some path) data = .error e ↔
      write value path data = .error e := by
    intro e
    rw [store_eq_attempt, outcome_attempt]
    cases write value path data <;> simp [Except.map]
  refine ⟨⟨?_, ?_⟩, store_eq_attempt value data path, fun e h => ?_⟩
  · rintro ⟨e, h⟩
    obtain ⟨front, v, hpath, hrest, hv, hmap, -⟩ := write_eq_error_iff.mp ((hwrite e).mp h)
    refine ⟨front, v, ⟨e.rest, hpath.symm⟩, fun hwhole => hrest ?_, hv, hmap⟩
    rw [hwhole] at hpath
    exact List.self_eq_append_right.mp hpath
  · rintro ⟨front, v, ⟨rest, hpath⟩, hshort, hv, hmap⟩
    have hrest : rest ≠ [] := by
      rintro rfl
      rw [List.append_nil] at hpath
      exact hshort hpath
    refine ⟨⟨v.typeName, rest⟩, (hwrite _).mpr (write_eq_error_iff.mpr ?_)⟩
    exact ⟨front, v, hpath.symm, hrest, hv, hmap, rfl⟩
  · rw [attempt_of_error ((hwrite e).mp h)]

/-- A store below a name, which is a text. -/
theorem store_atomic_of_household :
    store .null (some ["person", "name", "first", "initial"]) household =
      .error ⟨"str", ["first", "initial"]⟩ ∧
    (∃ front v, front <+: ["person", "name", "first", "initial"] ∧
      front ≠ ["person", "name", "first", "initial"] ∧ household.atKeys? front = some v ∧
        v.isMap = false) ∧
    (attempt .null ["person", "name", "first", "initial"] household).data = household := by
  have hfails : store .null (some ["person", "name", "first", "initial"]) household =
      .error ⟨"str", ["first", "initial"]⟩ := rfl
  obtain ⟨hiff, -, hleft⟩ := store_atomic .null household ["person", "name", "first", "initial"]
  exact ⟨hfails, hiff.mp ⟨_, hfails⟩, hleft _ hfails⟩

end Value

end RuleTree
