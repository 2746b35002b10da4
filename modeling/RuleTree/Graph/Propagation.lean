import RuleTree.Graph.Basic
import RuleTree.Value.Content
/-!
# Propagation

`Graph.propagate` lists what a path leads to: its edges first, then what each of
them leads to in turn, with repetitions. The walk carries the chain of paths from
its start. In a directed graph an edge back into the chain is a cycle and an error;
in the undirected graph, where every edge can be walked back, such an edge is
passed over. Either way the members of a chain differ, so a chain is no longer than
the number of edges that the graph can give.
-/

namespace RuleTree

/-- Why a walk through a graph fails. -/
inductive PropagationError where
  /-- The paths of a cycle, the first one also at its end. -/
  | cycle (paths : List String)
  /-- A cycle of something else than written paths. -/
  | untextualCycle
  /-- The start is no path. -/
  | notPath
  /-- A text of digits has no value as a position in a list, or a segment cannot be written. -/
  | malformedIndex
  /-- The bound on the length of a chain was too small. -/
  | exhausted
  deriving DecidableEq

namespace PropagationError

/-- The wording of a cycle. -/
def message? : PropagationError → Option String
  | cycle paths => some ("의존성 순환이 감지되었습니다: " ++ " -> ".intercalate paths)
  | _ => none

end PropagationError

namespace Graph

/-- Whether a path is in a chain. -/
def inChain (chain : List Value) (path : Value) : Bool := chain.any path.sameContent

/-- The written paths among values, none if one is no text. -/
def texts? (paths : List Value) : Option (List String) :=
  paths.mapM fun v => match v with
    | .str s => some s
    | _ => none

/-- The error for an edge that leads back into the chain. -/
def cycleError (chain : List Value) (path : Value) : PropagationError :=
  match texts? (chain.dropWhile (fun v => !path.sameContent v) ++ [path]) with
  | some paths => .cycle paths
  | none => .untextualCycle

/-- The edges of a path to walk on along. -/
def steps (g : Graph) (direction : Direction) (chain : List Value) (path : Value) :
    Except PropagationError (List Value) := do
  let segments ← (Path.ofValue path).mapError fun
    | .scalar => .notPath
    | .unwritable => .malformedIndex
  let found ← (g.edges segments direction).mapError fun _ => .malformedIndex
  match direction with
  | .undirected => return found.filter fun edge => !inChain chain edge
  | _ =>
    match found.find? (inChain chain) with
    | some edge => throw (cycleError chain edge)
    | none => return found

/-- What a path leads to, below a chain of paths. -/
def walk (g : Graph) (direction : Direction) :
    Nat → List Value → Value → Except PropagationError (List Value)
  | 0, _, _ => .error .exhausted
  | fuel + 1, chain, path => do
    let found ← steps g direction chain path
    let beyond ← found.mapM fun edge => walk g direction fuel (chain ++ [edge]) edge
    return found ++ beyond.flatten

/-- A bound on the length of a chain: an edge is a value in the view, a key or a
character of a text in it. -/
def chainBound (g : Graph) (direction : Direction) : Nat := (g.view direction).weight + 2

/-- What a path leads to. -/
def propagate (g : Graph) (direction : Direction) (path : Value) :
    Except PropagationError (List Value) :=
  walk g direction (g.chainBound direction) [path] path

end Graph

end RuleTree
