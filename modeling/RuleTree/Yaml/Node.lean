import RuleTree.Yaml.Tag
/-!
# YAML documents

A document is a graph of nodes: scalars, sequences and mappings, each with its tag.
A collection names its parts by their numbers, so a node that is repeated by an
alias is the same node, and a collection may even hold itself.
-/

namespace RuleTree.Yaml

/-- The number of a node in its document. -/
abbrev NodeId := Nat

/-- What a node holds. -/
inductive Content where
  | scalar (text : String)
  | sequence (items : List NodeId)
  | mapping (pairs : List (NodeId × NodeId))

/-- A node. -/
structure Node where
  tag : Tag
  content : Content

/-- The node that stands where nothing is written. -/
def Node.nothing : Node := ⟨.null, .scalar ""⟩

/-- Nodes by their numbers, and the one that holds the others. -/
structure Document where
  nodes : Array Node
  root : NodeId

namespace Document

/-- The node with a number. -/
def node (d : Document) (id : NodeId) : Node := d.nodes.getD id .nothing

/-- The tag of a node. -/
def tag (d : Document) (id : NodeId) : Tag := (d.node id).tag

/-- The content of a node. -/
def content (d : Document) (id : NodeId) : Content := (d.node id).content

/-- Give a node another tag. -/
def setTag (d : Document) (id : NodeId) (tag : Tag) : Document :=
  { d with nodes := d.nodes.modify id fun n => { n with tag } }

/-- Give a node another content. -/
def setContent (d : Document) (id : NodeId) (content : Content) : Document :=
  { d with nodes := d.nodes.modify id fun n => { n with content } }

/-- The items of a sequence. -/
def items? (d : Document) (id : NodeId) : Option (List NodeId) :=
  match d.content id with
  | .sequence items => some items
  | _ => none

/-- The pairs of a mapping. -/
def pairs? (d : Document) (id : NodeId) : Option (List (NodeId × NodeId)) :=
  match d.content id with
  | .mapping pairs => some pairs
  | _ => none

/-! ## Scalars -/

/-- The text of a node that stands for a scalar: its own, or in a mapping that of the value
under the default key. -/
def scalarText (d : Document) : Nat → NodeId → Except Malformed String
  | 0, _ => .error .document
  | fuel + 1, id =>
    match d.content id with
    | .scalar text => .ok text
    | .sequence _ => .error .document
    | .mapping pairs =>
      match pairs.find? fun (key, _) => d.tag key = .default with
      | some (_, value) => d.scalarText fuel value
      | none => .error .document

/-- The value of a node that stands for a scalar. -/
def scalar (d : Document) (id : NodeId) : Except Malformed Value := do
  let text ← d.scalarText (d.nodes.size + 1) id
  if d.tag id = .timestamp && (d.pairs? id).isSome then throw .dateMapping
  (d.tag id).scalar text

end Document

end RuleTree.Yaml
