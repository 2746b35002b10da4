import RuleTree.Path.Basic
import RuleTree.Value.Basic
/-!
# Edge maps

The edges of a graph are kept in the shape of the rules: a list of paths where a
path ends, a map where it goes on. If a path has edges of its own and others below
it, its own are kept in the map under the empty key.
-/

namespace RuleTree.EdgeMap

/-- The key of a path's own edges among those below it. -/
def ownKey : String := ""

mutual

/-- Add a path to an edge set; in a map it is added below every key, prolonged by the
key. Anything else is replaced by a new edge set. -/
def merge (path : String) : Value → Value
  | .list _ items => .ofList (items ++ [.str path])
  | .map _ entries => .ofEntries (mergeEntries path entries)
  | _ => .ofTexts [path]
  termination_by structural v => v

/-- Add a path below every key. -/
def mergeEntries (path : String) : List (String × Value) → List (String × Value)
  | [] => []
  | (key, v) :: rest => (key, merge (path ++ "." ++ key) v) :: mergeEntries path rest
  termination_by structural entries => entries

end

mutual

/-- The edge sets of a map with their paths, below a given path. -/
def edgeSets (path : Path) : Value → List (String × Value)
  | .list id items => [(path.text, .list id items)]
  | .map _ entries => edgeSetsOfEntries path entries
  | _ => []
  termination_by structural v => v

/-- The edge sets under the keys of a map. -/
def edgeSetsOfEntries (path : Path) : List (String × Value) → List (String × Value)
  | [] => []
  | (key, v) :: rest =>
    (if key = ownKey then [(path.text, v)] else edgeSets (path ++ [key]) v) ++
      edgeSetsOfEntries path rest
  termination_by structural entries => entries

end

/-- The map that a node becomes when a path goes on through it: the edges of a list
become the node's own. -/
def opened : Option Value → List (String × Value)
  | some (.list id items) => [(ownKey, .list id items)]
  | some (.map _ entries) => entries
  | _ => []

/-- Add an edge to a node at which a path ends. -/
def addHere (edge : String) : Option Value → Value
  | some (.map id entries) =>
    .map id (Entries.put ownKey
      (merge edge ((Entries.get? ownKey entries).getD .null)) entries)
  | node => merge edge (node.getD .null)

/-- Add an edge at a path. -/
def insert (edge : String) : Path → List (String × Value) → List (String × Value)
  | [], entries => entries
  | [last], entries =>
    Entries.put last (addHere edge (Entries.get? last entries)) entries
  | segment :: rest, entries =>
    let inner := opened (Entries.get? segment entries)
    Entries.put segment (.ofEntries (insert edge rest inner)) entries

/-- The elements of an edge set: items, keys or characters. -/
def elements : Value → List Value
  | .list _ items => items
  | .map _ entries => (Entries.keys entries).map .str
  | .str s => s.toList.map fun c => .str c.toString
  | _ => []

end RuleTree.EdgeMap
