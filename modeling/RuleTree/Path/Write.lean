import RuleTree.Path.Basic
import RuleTree.Value.Basic
/-!
# Writing by path

`Value.write` puts a value at a path and gives the new root. Maps that are missing
on the way are made; everything beside the path keeps its place and its value. A
path that leads through anything but maps cannot be written, and then nothing
changes. `Value.attempt` is the same write as it goes on in the data, which shows
what the data is like after a write that fails.
-/

namespace RuleTree

/-- A path cannot be made below a value. -/
structure WriteError where
  /-- The type of the value that is in the way. -/
  typeName : String
  /-- The segments that are left. -/
  rest : Path
  deriving DecidableEq

/-- The wording of the error. -/
def WriteError.message (e : WriteError) : String :=
  "'" ++ e.typeName ++ "' 값 아래에는 경로를 만들 수 없습니다: " ++ e.rest.text

/-- The result of a write and the data that it leaves behind. -/
structure Stored where
  result : Value
  data : Value

namespace Value

/-- The root with a value put at a path. -/
def write (value : Value) : Path → Value → Except WriteError Value
  | [], _ => .ok value
  | segment :: rest, map id entries => do
    let inner := (Entries.get? segment entries).getD (ofEntries [])
    return map id (Entries.put segment (← write value rest inner) entries)
  | path, v => .error ⟨v.typeName, path⟩

/-- Store a value in data. Without a path the data is the result; at the empty path the
value is, and the data stays. -/
def store (value : Value) (path : Option Path) (data : Value) : Except WriteError Stored :=
  match path with
  | none => .ok ⟨data, data⟩
  | some [] => .ok ⟨value, data⟩
  | some path => do
    let root ← write value path data
    return ⟨root, root⟩

end Value

/-! ## Writes in place -/

/-- How a write in place ends, and what it leaves of the data in either case. -/
structure Attempt where
  outcome : Except WriteError Value
  data : Value

namespace Value

/-- Put a value at a path in place. A missing map is bound before the rest of the path is
followed, and what has been bound by then stays if the rest cannot be written. -/
def attempt (value : Value) : Path → Value → Attempt
  | [], data => ⟨.ok value, data⟩
  | segment :: rest, map id entries =>
    let entries := Entries.putIfNew segment (ofEntries []) entries
    let below := attempt value rest ((Entries.get? segment entries).getD null)
    let entries := Entries.put segment below.data entries
    match below.outcome with
    | .ok inner =>
      let root := map id (Entries.put segment inner entries)
      ⟨.ok root, root⟩
    | .error e => ⟨.error e, map id entries⟩
  | path, v => ⟨.error ⟨v.typeName, path⟩, v⟩

end Value

end RuleTree
