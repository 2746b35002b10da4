import RuleTree.Path.OfValue
import RuleTree.Path.Read
import RuleTree.Rules.Expressions
import RuleTree.Graph.EdgeMap
import RuleTree.Expr.Dependencies
/-!
# Dependency graphs

A rule tree gives an edge for every path that an expression reads. The path is
prolonged by the expression's address without its first segment, so that a field
of a group depends on the same field of what the group reads. The forward map
leads from an expression to what it reads, the backward map from a path to its
readers, and the undirected map has the entries of both, those of the backward map
where the two share a key.
-/

namespace RuleTree

/-- Which way the edges lead. -/
inductive Direction where
  | forward
  | backward
  | undirected
  deriving DecidableEq, Inhabited

namespace Direction

/-- The name of a direction. -/
def name : Direction → String
  | forward => "forward"
  | backward => "backward"
  | undirected => "undirected"

/-- The direction with a name. -/
def ofName? (name : String) : Option Direction :=
  [forward, backward, undirected].find? fun d => d.name = name

end Direction

/-- An expression reads a path. -/
structure Edge where
  reader : Path
  target : Path
  deriving DecidableEq

namespace Rules

/-- The edge for a path that the expression at an address reads. An expression that is
the whole tree has the empty segment on both sides. -/
def edge (address : Path) (path : String) : Edge :=
  match address with
  | [] => ⟨[""], [""]⟩
  | _ :: below => ⟨address, Path.ofText path ++ below⟩

/-- The edges of the expression at an address. -/
def edgesAt (address : Path) (expression : Value) : Except EvalError (List Edge) := do
  return (← (Expr.ofValue expression).dependencies).map (edge address)

/-- The edges of all expressions in order. There are none for lists so long that a position
in them cannot be written. -/
def edges (rules : Value) : Except EvalError (List Edge) := do
  let each ← (expressions rules).mapM fun (address, e) => edgesAt address e
  if isWritable rules then return each.flatten else throw .malformedIndex

end Rules

/-- The edges of a rule tree, looked up in both directions. -/
structure Graph where
  forward : List (String × Value)
  backward : List (String × Value)

namespace Graph

/-- The graph with the given edges. -/
def ofEdges (edges : List Edge) : Graph :=
  { forward := edges.foldl (fun m e => EdgeMap.insert e.target.text e.reader m) []
    backward := edges.foldl (fun m e => EdgeMap.insert e.reader.text e.target m) [] }

/-- The graph of a rule tree. -/
def ofRules (rules : Value) : Except EvalError Graph := do
  return ofEdges (← Rules.edges rules)

/-- The entries of both maps, those of the backward map first in weight. -/
def undirected (g : Graph) : List (String × Value) :=
  g.backward.foldl (fun m (key, v) => Entries.put key v m) g.forward

/-- The edge map of a direction. -/
def view (g : Graph) : Direction → Value
  | .forward => .ofEntries g.forward
  | .backward => .ofEntries g.backward
  | .undirected => .ofEntries g.undirected

/-- The edges in what was found at a path: none, those of all edge sets in a map, or the
elements of what it is. -/
def edgesIn (found : Value) : List Value :=
  match found with
  | .null => []
  | .map id entries => (EdgeMap.edgeSets [] (.map id entries)).flatMap fun (_, set) =>
    EdgeMap.elements set
  | found => EdgeMap.elements found

/-- The edges at a path and below it. -/
def edges (g : Graph) (path : Path) (direction : Direction) :
    Except MalformedIndex (List Value) := do
  return edgesIn (← (g.view direction).read path true)

end Graph

end RuleTree
