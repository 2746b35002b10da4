import RuleTree.Value.Basic
/-!
# Content

Two values have equal content if they are equal apart from the identities of
their containers and the order of entries in maps. The weight of a value bounds
how many different values can be taken out of it.
-/

namespace RuleTree.Value

mutual

/-- Whether two values have equal content. -/
def sameContent : Value → Value → Bool
  | null, null => true
  | bool a, bool b => decide (a = b)
  | num a, num b => a.equal b
  | str a, str b => decide (a = b)
  | list _ xs, list _ ys => sameItems xs ys
  | map _ es, map _ fs => decide (es.length = fs.length) && sameEntries es fs
  | _, _ => false
  termination_by structural v => v

/-- Whether items have equal content one by one. -/
def sameItems : List Value → List Value → Bool
  | [], [] => true
  | v :: vs, w :: ws => sameContent v w && sameItems vs ws
  | _, _ => false
  termination_by structural vs => vs

/-- Whether every entry has one of equal content under its key. -/
def sameEntries : List (String × Value) → List (String × Value) → Bool
  | [], _ => true
  | (k, v) :: rest, fs =>
    (match Entries.get? k fs with
    | some w => sameContent v w
    | none => false) && sameEntries rest fs
  termination_by structural es => es

end

mutual

/-- How many values, keys and characters there are in a value. -/
def weight : Value → Nat
  | str s => s.length + 1
  | list _ items => weightOfItems items + 1
  | map _ entries => weightOfEntries entries + 1
  | _ => 1
  termination_by structural v => v

/-- How many values, keys and characters there are in items. -/
def weightOfItems : List Value → Nat
  | [] => 0
  | v :: vs => weight v + weightOfItems vs
  termination_by structural vs => vs

/-- How many values, keys and characters there are in entries. -/
def weightOfEntries : List (String × Value) → Nat
  | [] => 0
  | (_, v) :: rest => weight v + 1 + weightOfEntries rest
  termination_by structural entries => entries

end

end RuleTree.Value
