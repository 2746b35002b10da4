import RuleTree.Path.Read
import RuleTree.Path.Write
import RuleTree.Proofs.Outcome
import RuleTree.Proofs.Value.Keys
/-!
# Writing and reading

A write that succeeds goes through maps only, and through one entry of each
(`Value.of_write_cons`). Hence what is read at the path is what was written
(`Value.read_write`), a path that parts from it leads to the same as before
(`Value.read_write_of_not_prefix`), a second write at the path takes the place of the first
(`Value.write_write`), and every map that is not replaced keeps its keys in their order
(`Value.Inside.of_write`). `Value.store_laws` puts these together.
-/

namespace RuleTree

/-! ## Entries bound twice -/

namespace Entries

variable {α : Type}

/-- The second of two values put under one key stays. -/
theorem put_put (key : String) (v w : α) (entries : List (String × α)) :
    put key w (put key v entries) = put key w entries := by
  induction entries with
  | nil => simp [put]
  | cons e rest ih =>
    obtain ⟨k, u⟩ := e
    by_cases hk : k = key
    · simp [put, hk]
    · simp [put, hk, ih]

/-- A binding keeps the keys in their order, and a new key comes last. -/
theorem keys_prefix_keys_put (key : String) (v : α) (entries : List (String × α)) :
    keys entries <+: keys (put key v entries) := by
  induction entries with
  | nil => exact List.nil_prefix
  | cons e rest ih =>
    obtain ⟨k, u⟩ := e
    unfold put
    split_ifs with hk
    · exact List.prefix_rfl
    · exact List.prefix_cons_inj k |>.mpr ih

end Entries

namespace Value

open RuleTree.Path

/-! ## One step -/

variable {value data root : Value} {segment : String} {rest : Path}

/-- A write below a segment binds it, in a map, to what the rest of the write gives. -/
theorem of_write_cons (h : write value (segment :: rest) data = .ok root) :
    ∃ id entries inner, data = .map id entries ∧
      write value rest ((Entries.get? segment entries).getD (ofEntries [])) = .ok inner ∧
      root = .map id (Entries.put segment inner entries) := by
  cases data with
  | map id entries =>
    obtain ⟨inner, hinner, h⟩ := exists_of_bind_eq_ok h
    exact ⟨id, entries, inner, rfl, hinner, (Except.ok.inj h).symm⟩
  | _ => cases h

/-- A value written below a segment is written in what stands there, or in a new map. -/
theorem write_cons {id : Ident} {entries : List (String × Value)} {inner : Value}
    (h : write value rest ((Entries.get? segment entries).getD (ofEntries [])) = .ok inner) :
    write value (segment :: rest) (.map id entries) =
      .ok (.map id (Entries.put segment inner entries)) := by
  rw [write, h]
  rfl

/-- Reading below a key of a map goes on in its value, or ends if there is none. -/
theorem read_map_cons {id : Ident} {entries : List (String × Value)} {strict : Bool}
    (hs : segment ≠ wildcard) : (Value.map id entries).read (segment :: rest) strict =
      match Entries.get? segment entries with
      | some inner => inner.read rest strict
      | none => .ok (if strict then .null else .map id entries) := by
  rw [read_cons rfl hs, child?]
  cases Entries.get? segment entries <;> rfl

/-! ## Laws of a write -/

/-- What is read at the path, strictly or not, is what was written there. -/
theorem read_write : ∀ {path : Path} {data root : Value}, wildcard ∉ path →
    write value path data = .ok root → ∀ strict, root.read path strict = .ok value
  | [], _, root, _, h, _ => by
    obtain rfl : value = root := Except.ok.inj h
    rfl
  | segment :: rest, _, _, hpath, h, strict => by
    obtain ⟨hs, hrest⟩ := List.ne_and_not_mem_of_not_mem_cons hpath
    obtain ⟨id, entries, inner, rfl, hinner, rfl⟩ := of_write_cons h
    rw [read_map_cons (Ne.symm hs), Entries.get?_put_self]
    exact read_write hrest hinner strict

/-- A path that parts from the one written leads to the same as before, where that had been
missing as well. -/
theorem read_write_of_not_prefix : ∀ {path other : Path} {data root : Value},
    wildcard ∉ other → ¬ path <+: other → ¬ other <+: path →
      write value path data = .ok root → root.read other true = data.read other true
  | [], _, _, _, _, hparts, _, _ => absurd List.nil_prefix hparts
  | _ :: _, [], _, _, _, _, hparts, _ => absurd List.nil_prefix hparts
  | segment :: rest, first :: below, _, _, hother, hparts, hparts', h => by
    obtain ⟨hfirst, hbelow⟩ := List.ne_and_not_mem_of_not_mem_cons hother
    obtain ⟨id, entries, inner, rfl, hinner, rfl⟩ := of_write_cons h
    rw [read_map_cons (Ne.symm hfirst), read_map_cons (Ne.symm hfirst)]
    by_cases hsegment : first = segment
    · subst hsegment
      rw [List.prefix_cons_inj] at hparts hparts'
      have hread := read_write_of_not_prefix hbelow hparts hparts' hinner
      rw [Entries.get?_put_self]
      cases hv : Entries.get? first entries with
      | some v => simpa [hv] using hread
      | none =>
        -- the map that the write makes here has nothing where the paths part
        cases below with
        | nil => exact absurd List.nil_prefix hparts'
        | cons next below =>
          have hnext := (List.ne_and_not_mem_of_not_mem_cons hbelow).1
          rw [hv, Option.getD_none, ofEntries, read_map_cons (Ne.symm hnext)] at hread
          exact hread
    · rw [Entries.get?_put_of_ne hsegment]
      rfl

/-- A second write at a path gives what it would have given in place of the first. -/
theorem write_write (other : Value) : ∀ {path : Path} {data root : Value},
    write value path data = .ok root →
      ∃ root', write other path root = .ok root' ∧ write other path data = .ok root'
  | [], _, _, _ => ⟨other, rfl, rfl⟩
  | segment :: rest, _, _, h => by
    obtain ⟨id, entries, inner, rfl, hinner, rfl⟩ := of_write_cons h
    obtain ⟨inner', hagain, honce⟩ := write_write other hinner
    have hinner' : write other rest ((Entries.get? segment
        (Entries.put segment inner entries)).getD (ofEntries [])) = .ok inner' := by
      rwa [Entries.get?_put_self]
    refine ⟨.map id (Entries.put segment inner' entries), ?_, write_cons honce⟩
    rw [write_cons hinner', Entries.put_put]

/-! ## Maps inside a value -/

/-- A value stands inside another one, at the keys and positions that lead to it. -/
inductive Inside : Value → Path → Value → Prop
  | here (v : Value) : Inside v [] v
  | entry {id : Ident} {entries : List (String × Value)} {key : String} {v w : Value}
    {address : Path} (get : Entries.get? key entries = some v) (below : Inside v address w) :
    Inside (.map id entries) (key :: address) w
  | item {id : Ident} {items : List Value} {n : Nat} {v w : Value} {address : Path}
    (get : items[n]? = some v) (below : Inside v address w) :
    Inside (.list id items) (toString n :: address) w

/-- A map that a write does not replace is still there, with its keys in their order. -/
theorem Inside.of_write : ∀ {path address : Path} {data root : Value} {id : Ident}
    {entries : List (String × Value)}, write value path data = .ok root →
      Inside data address (.map id entries) → ¬ path <+: address →
        ∃ entries', Inside root address (.map id entries') ∧
          Entries.keys entries <+: Entries.keys entries'
  | [], _, _, _, _, _, _, _, hbeside => absurd List.nil_prefix hbeside
  | segment :: rest, _, _, _, id, entries, h, hin, hbeside => by
    obtain ⟨id', entries', inner, rfl, hinner, rfl⟩ := of_write_cons h
    cases hin with
    | here => exact ⟨_, .here _, Entries.keys_prefix_keys_put ..⟩
    | @entry _ _ key v _ address get below =>
      by_cases hkey : key = segment
      · subst hkey
        rw [List.prefix_cons_inj] at hbeside
        rw [get] at hinner
        obtain ⟨kept, hkept, hkeys⟩ := Inside.of_write hinner below hbeside
        exact ⟨kept, .entry (Entries.get?_put_self ..) hkept, hkeys⟩
      · exact ⟨entries, .entry ((Entries.get?_put_of_ne hkey ..).trans get) below,
          List.prefix_rfl⟩

/-! ## Laws of a store -/

/-- A store gives the root that a write gives. -/
theorem store_eq_ok_iff {path : Path} :
    (∃ s, store value (some path) data = .ok s ∧ s.result = root) ↔
      write value path data = .ok root := by
  constructor
  · rintro ⟨s, hs, rfl⟩
    cases path with
    | nil =>
      obtain rfl := Except.ok.inj hs
      rfl
    | cons segment rest =>
      obtain ⟨root, hroot, hs⟩ := exists_of_bind_eq_ok hs
      obtain rfl := Except.ok.inj hs
      exact hroot
  · intro h
    cases path with
    | nil => exact ⟨⟨value, data⟩, rfl, Except.ok.inj h⟩
    | cons segment rest => exact ⟨⟨root, root⟩, by simp [store, h], rfl⟩

/-- Storing and reading by path are a lens : a store is read back, changes nothing that is read
beside it, and gives way to the next one at its path. Maps keep their keys in order. -/
theorem store_laws {path : Path} {s : Stored} (hpath : wildcard ∉ path)
    (hs : store value (some path) data = .ok s) :
    (∀ strict, s.result.read path strict = .ok value) ∧
    (∀ other, wildcard ∉ other → ¬ path <+: other → ¬ other <+: path →
      s.result.read other true = data.read other true) ∧
    (∀ next, ∃ again once, store next (some path) s.result = .ok again ∧
      store next (some path) data = .ok once ∧ again.result = once.result) ∧
    ∀ address id entries, Inside data address (.map id entries) → ¬ path <+: address →
      ∃ entries', Inside s.result address (.map id entries') ∧
        Entries.keys entries <+: Entries.keys entries' := by
  have hwrite : write value path data = .ok s.result := store_eq_ok_iff.mp ⟨s, hs, rfl⟩
  refine ⟨read_write hpath hwrite, fun other hother hparts hparts' => ?_, fun next => ?_,
    fun address id entries hin hbeside => hin.of_write hwrite hbeside⟩
  · exact read_write_of_not_prefix hother hparts hparts' hwrite
  · obtain ⟨root, hsecond, hfirst⟩ := write_write next hwrite
    obtain ⟨again, hagain, hroot⟩ := store_eq_ok_iff.mpr hsecond
    obtain ⟨once, honce, hroot'⟩ := store_eq_ok_iff.mpr hfirst
    exact ⟨again, once, hagain, honce, hroot.trans hroot'.symm⟩

/-- A map in a map beside a list. -/
def household : Value := .ofEntries [
  ("person", .ofEntries [("age", .int 30), ("name", .str "kim")]),
  ("incomes", .ofList [.int 100])]

/-- A store that makes a map on the way. -/
theorem store_laws_of_household : ∃ s,
    store (.str "seoul") (some ["person", "home", "city"]) household = .ok s ∧
    (∀ strict, s.result.read ["person", "home", "city"] strict = .ok (.str "seoul")) ∧
    s.result.read ["person", "home", "street"] true = .ok .null ∧
    s.result.read ["incomes", "0"] true = .ok (.int 100) ∧
    (∃ again once, store .null (some ["person", "home", "city"]) s.result = .ok again ∧
      store .null (some ["person", "home", "city"]) household = .ok once ∧
        again.result = once.result) ∧
    ∃ entries, Inside s.result ["person"] (.map (.made 0) entries) ∧
      ["age", "name"] <+: Entries.keys entries := by
  obtain ⟨s, hs⟩ : ∃ s, store (.str "seoul") (some ["person", "home", "city"]) household = .ok s :=
    ⟨_, rfl⟩
  obtain ⟨hback, hbeside, hagain, hkeys⟩ := store_laws (by decide) hs
  refine ⟨s, hs, hback, ?_, ?_, hagain .null, ?_⟩
  · exact hbeside ["person", "home", "street"] (by decide) (by decide) (by decide)
  · exact hbeside ["incomes", "0"] (by decide) (by decide) (by decide)
  · exact hkeys ["person"] _ _ (.entry rfl (.here _)) (by decide)

end Value

end RuleTree
