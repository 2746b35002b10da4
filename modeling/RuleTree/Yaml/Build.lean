import RuleTree.Yaml.Merge
/-!
# Values of documents

The value of a document is built from its root outwards: a scalar has its value as
soon as it is met, and a collection waits until those met before it have got their
content. So of two faults the one that lies less deep shows. A node has one value,
wherever it is repeated.
-/

namespace RuleTree.Yaml

/-- What has been made of a node. -/
inductive Part where
  | scalar (v : Value)
  | list (items : List NodeId)
  | map (entries : List (String × NodeId))

/-- A document of which some parts have been made. -/
structure Builder where
  document : Document
  /-- The parts by the numbers of their nodes; those behind them belong to pairs. -/
  parts : Array (Option Part)
  /-- The collections met so far, in order. -/
  met : Array NodeId

/-- A step of building. -/
abbrev Build := StateT Builder (Except Malformed)

namespace Build

/-- What has been made of a node, if it has been met. -/
def part? (id : NodeId) : Build (Option Part) := return ((← get).parts[id]?).join

/-- Keep what has been made of a node. -/
def keep (id : NodeId) (part : Part) : Build Unit :=
  modify fun b => { b with parts := b.parts.setIfInBounds id (some part) }

/-- Meet a node. -/
def meet (id : NodeId) : Build Unit := do
  if (← part? id).isSome then return
  let b ← get
  if (b.document.tag id).isCollection then
    keep id (.list [])
    modify fun b => { b with met := b.met.push id }
  else keep id (.scalar (← b.document.scalar id))

/-- The text that a key is; maps have no other keys. -/
def keyText : Value → Except Malformed String
  | .str s => .ok s
  | .list .. => .error .document
  | .map .. => .error .document
  | _ => .error .key

/-- Meet a node that is a key; a collection cannot be one. -/
def meetKey (id : NodeId) : Build String := do
  meet id
  match ← part? id with
  | some (.scalar v) => keyText v
  | _ => throw .document

/-- Meet the items of a sequence. -/
def items (id : NodeId) : Build (List NodeId) := do
  let some items := (← get).document.items? id | throw .document
  items.forM meet
  return items

/-- Meet what a mapping holds. A repeated key keeps its first place and its last value. -/
def entries (id : NodeId) : Build (List (String × NodeId)) := do
  let b ← get
  if (b.document.pairs? id).isNone then throw .document
  let document ← b.document.flatten id
  set { b with document }
  ((document.pairs? id).getD []).foldlM (fun entries (key, value) => do
    let name ← meetKey key
    meet value
    return Entries.put name value entries) []

/-- Meet the only pair of a mapping, which becomes a list of two. -/
def pair (id : NodeId) : Build NodeId := do
  let some [(key, value)] := (← get).document.pairs? id | throw .document
  meet key
  meet value
  let number := (← get).parts.size
  modify fun b => { b with parts := b.parts.push (some (.list [key, value])) }
  return number

/-- Give a collection its content. -/
def fill (id : NodeId) : Build Unit := do
  match (← get).document.tag id with
  | .mapping => keep id (.map (← entries id))
  | .set => keep id (.scalar (.ofTexts (Entries.keys (← entries id))))
  | .pairs =>
    let some items := (← get).document.items? id | throw .document
    keep id (.list (← items.mapM pair))
  | _ => keep id (.list (← items id))

/-- Give the collections their content in the order in which they are met. -/
def fillAll (next : Nat) : Nat → Build Unit
  | 0 => throw .document
  | fuel + 1 => do
    match (← get).met[next]? with
    | none => return
    | some id =>
      fill id
      fillAll (next + 1) fuel

/-- Build a document from its root outwards. -/
def all : Build Unit := do
  let d := (← get).document
  meet d.root
  fillAll 0 (d.nodes.size + 1)

end Build

/-- The parts of a document. -/
def Document.parts (d : Document) : Except Malformed (Array (Option Part)) := do
  return (← Build.all.run ⟨d, Array.replicate d.nodes.size none, #[]⟩).2.parts

/-- The value that parts make up. A collection inside itself is null there; `around` holds
those around a node. -/
def valueOf (parts : Array (Option Part)) (around : List NodeId) : Nat → NodeId → Value
  | 0, _ => .null
  | fuel + 1, id =>
    if around.contains id then .null
    else
      let inner := valueOf parts (id :: around) fuel
      match (parts[id]?).join with
      | none => .null
      | some (.scalar v) => v
      | some (.list items) => .list (.loaded id) (items.map inner)
      | some (.map entries) => .map (.loaded id) (entries.map fun (key, part) => (key, inner part))

/-- The value of a document. -/
def Document.toValue (d : Document) : Except Malformed Value := do
  let parts ← d.parts
  return valueOf parts [] (parts.size + 1) d.root

end RuleTree.Yaml
