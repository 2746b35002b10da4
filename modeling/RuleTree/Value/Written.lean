import RuleTree.Value.Basic
import RuleTree.Text.Quoted
/-!
# The written form of a value

A value that stands where a path is expected is written out. A text stands for
itself; inside a container it is quoted. An integer of too many digits cannot be
written, and so cannot a container with one in it.
-/

namespace RuleTree.Value

/-- The words and marks of the written form. -/
structure Spelling where
  null : String
  yes : String
  no : String
  separator : String
  pair : String

/-- Items are separated by a comma and a blank, a key from its value by a colon and a
blank. -/
def spelling : Spelling :=
  { null := "None", yes := "True", no := "False", separator := ", ", pair := ": " }

mutual

/-- The written form inside a container. -/
def Spelling.nested (s : Spelling) : Value → String
  | .null => s.null
  | .bool b => if b then s.yes else s.no
  | .num n => n.text
  | .str text => Text.quote text
  | .list _ items => "[" ++ s.separator.intercalate (s.items items) ++ "]"
  | .map _ entries => "\x7b" ++ s.separator.intercalate (s.entries entries) ++ "\x7d"
  termination_by structural v => v

/-- The written forms of the items. -/
def Spelling.items (s : Spelling) : List Value → List String
  | [] => []
  | v :: vs => s.nested v :: s.items vs
  termination_by structural vs => vs

/-- The written forms of the entries. -/
def Spelling.entries (s : Spelling) : List (String × Value) → List String
  | [] => []
  | (k, v) :: rest => (Text.quote k ++ s.pair ++ s.nested v) :: s.entries rest
  termination_by structural entries => entries

end

mutual

/-- Whether a value can be written. -/
def isWritable : Value → Bool
  | num (.int n) => Text.isWritable n.natAbs
  | list _ items => isWritableItems items
  | map _ entries => isWritableEntries entries
  | _ => true
  termination_by structural v => v

/-- Whether the items of a list can be written. -/
def isWritableItems : List Value → Bool
  | [] => true
  | v :: vs => isWritable v && isWritableItems vs
  termination_by structural vs => vs

/-- Whether the entries of a map can be written. -/
def isWritableEntries : List (String × Value) → Bool
  | [] => true
  | (_, v) :: rest => isWritable v && isWritableEntries rest
  termination_by structural entries => entries

end

/-- The written form of a value that stands alone. -/
def written : Value → String
  | str s => s
  | v => spelling.nested v

theorem isWritableItems_eq (items : List Value) : isWritableItems items = items.all isWritable := by
  induction items with
  | nil => rfl
  | cons v vs ih => rw [isWritableItems, ih, List.all_cons]

theorem isWritableEntries_eq (entries : List (String × Value)) :
    isWritableEntries entries = entries.all fun e => isWritable e.2 := by
  induction entries with
  | nil => rfl
  | cons entry rest ih => rw [isWritableEntries, ih, List.all_cons]

end RuleTree.Value
