import RuleTree.Path.Basic
import RuleTree.Value.Basic
/-!
# Reading by path

`Value.read` follows a path into a value. A wildcard fans out over all children
and collects what it finds in one flat list without nulls; a wildcard at the end
of the path goes on through nested maps. Where a segment is missing, a strict
reading gives null and a lenient one the value reached so far.
-/

namespace RuleTree.Value

/-- The items of a list, or the value alone. -/
def opened : Value → List Value
  | list _ items => items
  | v => [v]

/-- Results of a fan-out in one list: lists are opened once and nulls left out. -/
def collected (found : List Value) : List Value :=
  (found.flatMap opened).filter fun v => !v.isNull

mutual

/-- What a wildcard at the end of a path finds. -/
def leaves : Value → List Value
  | map _ entries => (leavesOfEntries entries).filter fun v => !v.isNull
  | list _ items => collected items
  | v => [v]
  termination_by structural v => v

/-- What a wildcard at the end of a path finds in the values of a map. -/
def leavesOfEntries : List (String × Value) → List Value
  | [] => []
  | (_, v) :: rest => leaves v ++ leavesOfEntries rest
  termination_by structural entries => entries

end

/-- The value at a path. -/
def read : Path → Bool → Value → Except MalformedIndex Value
  | [], _, v => .ok v
  | segment :: rest, strict, v =>
    if v.isScalar then
      .ok (if segment = Path.wildcard ∧ rest = [] then ofList [v] else null)
    else if segment = Path.wildcard then
      if rest.isEmpty then .ok (ofList v.leaves)
      else do
        let found ← v.children.mapM (read rest true)
        return ofList (collected found)
    else do
      match ← v.child? segment with
      | some inner => read rest strict inner
      | none => return if strict then null else v

variable {v : Value} {segment : String}

/-- Nothing is below a scalar, but a wildcard at the end of a path finds the scalar. -/
theorem read_scalar_cons (hv : v.isScalar = true) (segment : String) (rest : Path)
    (strict : Bool) : v.read (segment :: rest) strict =
      .ok (if segment = Path.wildcard ∧ rest = [] then ofList [v] else null) := by
  rw [read, if_pos hv]

/-- In a list or map a segment that is no wildcard leads to the child that it names. -/
theorem read_cons (hv : v.isScalar = false) (hs : segment ≠ Path.wildcard) (rest : Path)
    (strict : Bool) : v.read (segment :: rest) strict =
      v.child? segment >>= fun child =>
        child.elim (.ok (if strict then null else v)) fun inner => inner.read rest strict := by
  rw [read, if_neg (by simp [hv]), if_neg hs]
  cases v.child? segment with
  | error e => rfl
  | ok child => cases child <;> rfl

end RuleTree.Value
