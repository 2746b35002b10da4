import RuleTree.Value.Basic
/-!
# Values that JSON can write

JSON has no words for doubles that are not finite. `Value.jsonSafe` puts null in
their place, at every depth, and keeps everything else.
-/

namespace RuleTree.Value

/-- A number that JSON can write, or null. -/
def ofFinite : Number → Value
  | .double d => if d.isFinite then num (.double d) else null
  | n => num n

mutual

/-- A value without numbers that JSON cannot write. -/
def jsonSafe : Value → Value
  | num n => ofFinite n
  | list id items => list id (jsonSafeItems items)
  | map id entries => map id (jsonSafeEntries entries)
  | v => v
  termination_by structural v => v

/-- Items without numbers that JSON cannot write. -/
def jsonSafeItems : List Value → List Value
  | [] => []
  | v :: vs => jsonSafe v :: jsonSafeItems vs
  termination_by structural vs => vs

/-- Entries without numbers that JSON cannot write. -/
def jsonSafeEntries : List (String × Value) → List (String × Value)
  | [] => []
  | (k, v) :: rest => (k, jsonSafe v) :: jsonSafeEntries rest
  termination_by structural entries => entries

end

/-- The values in a map. -/
def entryValues : Value → List Value
  | map _ entries => Entries.values entries
  | _ => []

end RuleTree.Value
