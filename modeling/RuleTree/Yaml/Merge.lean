import RuleTree.Yaml.Node
/-!
# Merge keys

Under a merge key a mapping names another one, or a sequence of them, whose pairs it
takes over in front of its own; of several in a sequence the first has the last word.
`Document.flatten` puts the pairs in place of the merge keys. A mapping may merge
itself: what it has got by then counts.
-/

namespace RuleTree.Yaml

/-- A step of merging. -/
abbrev Merge := StateT Document (Except Malformed)

namespace Merge

/-- The pairs of a node that must be a mapping. -/
def pairsOf (id : NodeId) : Merge (List (NodeId × NodeId)) := do
  match (← get).pairs? id with
  | some pairs => return pairs
  | none => throw .document

/-- Make the default keys of a mapping common texts. -/
def nameDefaults (id : NodeId) : Merge Unit := do
  for (key, _) in ← pairsOf id do
    if (← get).tag key = .default then modify fun d => d.setTag key .text

/-- Take the first merge key off a mapping; gives the node under it. -/
def takeMergeKey (id : NodeId) : Merge (Option NodeId) := do
  let d ← get
  let isMerge (pair : NodeId × NodeId) : Bool := d.tag pair.1 = .merge
  let pairs ← pairsOf id
  match pairs.find? isMerge with
  | none => return none
  | some (_, value) =>
    set (d.setContent id (.mapping (pairs.eraseP isMerge)))
    return some value

/-- Put pairs in front of those of a mapping. -/
def putInFront (id : NodeId) (brought : List (NodeId × NodeId)) : Merge Unit := do
  let pairs ← pairsOf id
  modify fun d => d.setContent id (.mapping (brought ++ pairs))

/-- Put the pairs in place of the merge keys of a mapping, behind those that have been brought
in before. Every step takes one merge key off the document. -/
def flatten (brought : List (NodeId × NodeId)) : Nat → NodeId → Merge Unit
  | 0, _ => throw .document
  | fuel + 1, id => do
    nameDefaults id
    match ← takeMergeKey id with
    | none => putInFront id brought
    | some value =>
      let flattened (id : NodeId) : Merge (List (NodeId × NodeId)) := do
        flatten [] fuel id
        pairsOf id
      let more ← match (← get).content value with
        | .scalar _ => throw .document
        | .mapping _ => flattened value
        | .sequence items => do pure (← items.mapM flattened).reverse.flatten
      flatten (brought ++ more) fuel id

end Merge

namespace Document

/-- The number of merge keys in a document. -/
def mergeKeys (d : Document) : Nat :=
  d.nodes.foldl (fun n node =>
    match node.content with
    | .mapping pairs => n + pairs.countP fun (key, _) => d.tag key = .merge
    | _ => n) 0

/-- The document with the pairs of a mapping in place of its merge keys. -/
def flatten (d : Document) (id : NodeId) : Except Malformed Document := do
  return (← (Merge.flatten [] (d.mergeKeys + 1) id).run d).2

end Document

end RuleTree.Yaml
