import RuleTree.Yaml.Token
import RuleTree.Yaml.Node
/-!
# Documents in tokens

The tokens of a text describe one document. `Document.ofTokens` reads it, if there
is one. A node with an anchor can be repeated by its alias, also inside itself.
-/

namespace RuleTree.Yaml

/-- What is known while a document is read. -/
structure Composer where
  stream : TokenStream
  /-- The texts that the handles of tags stand for. -/
  handles : List (String × String)
  /-- The nodes behind the anchors met so far. -/
  anchors : List (String × NodeId)
  nodes : Array Node

/-- A step of reading a document. -/
abbrev Compose := StateT Composer (Except Malformed)

namespace Compose

/-! ## Tokens -/

/-- The next token; a fault is met when the tokens before it are used up. -/
def peek : Compose (Option Token) := do
  let s := (← get).stream
  match s.tokens, s.fault with
  | t :: _, _ => return some t
  | [], none => return none
  | [], some e => throw e

/-- Pass the next token. -/
def skip : Compose Unit :=
  modify fun s => { s with stream := { s.stream with tokens := s.stream.tokens.tail } }

/-- Pass the next token if it is the given one. -/
def accept (t : Token) : Compose Bool := do
  if (← peek) = some t then
    skip
    return true
  else return false

/-- Whether the next token is one of the given ones. -/
def seesOneOf (ts : List Token) : Compose Bool := do
  match ← peek with
  | some t => return ts.contains t
  | none => return false

/-- Pass a token that has to be here. -/
def expect (t : Token) : Compose Unit := do
  if !(← accept t) then throw .document

/-! ## Nodes -/

/-- Add a node behind an anchor, if there is one; the anchor must be new. -/
def addNode (anchor : Option String) (n : Node) : Compose NodeId := do
  let s ← get
  let id := s.nodes.size
  let anchors ← match anchor with
    | none => pure s.anchors
    | some name =>
      if (Entries.get? name s.anchors).isSome then throw .document
      pure ((name, id) :: s.anchors)
  set { s with anchors, nodes := s.nodes.push n }
  return id

/-- Add the node that stands where nothing is written. -/
def addNothing : Compose NodeId := addNode none .nothing

/-- Give a collection its content. -/
def fill (id : NodeId) (content : Content) : Compose NodeId := do
  modify fun s => { s with nodes := s.nodes.modify id fun n => { n with content } }
  return id

/-- The node behind an anchor. -/
def aliased (name : String) : Compose NodeId := do
  match Entries.get? name (← get).anchors with
  | some id => return id
  | none => throw .document

/-- The full name of a tag. -/
def tagName (handle : Option String) (rest : String) : Compose String := do
  match handle with
  | none => return rest
  | some handle =>
    match Entries.get? handle (← get).handles with
    | some expansion => return expansion ++ rest
    | none => throw .document

/-- Take the anchor of a node, if it has one here. -/
def takeAnchor : Compose (Option String) := do
  match ← peek with
  | some (.anchor name) =>
    skip
    return some name
  | _ => return none

/-- Take the tag of a node, if it has one here. -/
def takeTag : Compose (Option (Option String × String)) := do
  match ← peek with
  | some (.tag handle rest) =>
    skip
    return some (handle, rest)
  | _ => return none

/-- Take the anchor and the tag of a node, in either order. -/
def properties : Compose (Option String × Option String) := do
  let first ← takeAnchor
  let tag ← takeTag
  let anchor ← if first.isNone && tag.isSome then takeAnchor else pure first
  match tag with
  | none => return (anchor, none)
  | some (handle, rest) => return (anchor, some (← tagName handle rest))

/-- The tag of a collection. -/
def collectionTag (standard : Tag) : Option String → Tag
  | none => standard
  | some name => if name = "!" then standard else .ofName name

/-- The tag of a scalar. -/
def scalarTag (text : String) (plain : Bool) : Option String → Tag
  | none => if plain then .ofForm text else .text
  | some name => if name = "!" then .ofForm text else .ofName name

mutual

/-- Read a node. Block collections start only in block context, and a sequence that is
not indented only as the key or the value of a block mapping. -/
def node (block unindented : Bool) : Nat → Compose NodeId
  | 0 => throw .document
  | fuel + 1 => do
    if let some (.alias name) ← peek then
      skip
      return ← aliased name
    let (anchor, tag) ← properties
    let sequence : Compose NodeId :=
      addNode anchor ⟨collectionTag .sequence tag, .sequence []⟩
    let mapping : Compose NodeId := addNode anchor ⟨collectionTag .mapping tag, .mapping []⟩
    match ← peek with
    | some (.scalar text plain) =>
      skip
      addNode anchor ⟨scalarTag text plain tag, .scalar text⟩
    | some .flowSequence =>
      let id ← sequence
      skip
      fill id (.sequence (← flowItems true fuel))
    | some .flowMapping =>
      let id ← mapping
      skip
      fill id (.mapping (← flowPairs true fuel))
    | t =>
      if unindented && t = some .blockEntry then
        let id ← sequence
        fill id (.sequence (← unindentedItems fuel))
      else if block && t = some .blockSequence then
        let id ← sequence
        skip
        fill id (.sequence (← blockItems fuel))
      else if block && t = some .blockMapping then
        let id ← mapping
        skip
        fill id (.mapping (← blockPairs fuel))
      else if anchor.isSome || tag.isSome then
        addNode anchor ⟨scalarTag "" tag.isNone tag, .scalar ""⟩
      else throw .document

/-- Read a node, or nothing in front of the given tokens. -/
def nodeUnless (stops : List Token) (block unindented : Bool) : Nat → Compose NodeId
  | 0 => throw .document
  | fuel + 1 => do
    if ← seesOneOf stops then addNothing else node block unindented fuel

/-- Read the value behind a key, if there is one. -/
def valueUnless (stops : List Token) (block unindented : Bool) : Nat → Compose NodeId
  | 0 => throw .document
  | fuel + 1 => do
    if ← accept .value then nodeUnless stops block unindented fuel else addNothing

/-- Read the items of a block sequence. -/
def blockItems : Nat → Compose (List NodeId)
  | 0 => throw .document
  | fuel + 1 => do
    if ← accept .blockEntry then
      let item ← nodeUnless [.blockEntry, .blockEnd] true false fuel
      return item :: (← blockItems fuel)
    else
      expect .blockEnd
      return []

/-- Read the items of a sequence that is not indented. -/
def unindentedItems : Nat → Compose (List NodeId)
  | 0 => throw .document
  | fuel + 1 => do
    if ← accept .blockEntry then
      let item ← nodeUnless [.blockEntry, .key, .value, .blockEnd] true false fuel
      return item :: (← unindentedItems fuel)
    else return []

/-- Read the pairs of a block mapping. -/
def blockPairs : Nat → Compose (List (NodeId × NodeId))
  | 0 => throw .document
  | fuel + 1 => do
    let stops := [.key, .value, .blockEnd]
    if ← accept .key then
      let key ← nodeUnless stops true true fuel
      let value ← valueUnless stops true true fuel
      return (key, value) :: (← blockPairs fuel)
    else
      expect .blockEnd
      return []

/-- Read the items of a flow sequence; an item may be a mapping of one pair. -/
def flowItems (first : Bool) : Nat → Compose (List NodeId)
  | 0 => throw .document
  | fuel + 1 => do
    if ← accept .flowSequenceEnd then return []
    if !first then expect .flowEntry
    if ← accept .key then
      let id ← addNode none ⟨.mapping, .mapping []⟩
      let stops := [.flowEntry, .flowSequenceEnd]
      let key ← nodeUnless (.value :: stops) false false fuel
      let value ← valueUnless stops false false fuel
      let item ← fill id (.mapping [(key, value)])
      return item :: (← flowItems false fuel)
    else if ← accept .flowSequenceEnd then return []
    else
      let item ← node false false fuel
      return item :: (← flowItems false fuel)

/-- Read the pairs of a flow mapping; a key may stand without a value. -/
def flowPairs (first : Bool) : Nat → Compose (List (NodeId × NodeId))
  | 0 => throw .document
  | fuel + 1 => do
    if ← accept .flowMappingEnd then return []
    if !first then expect .flowEntry
    if ← accept .key then
      let stops := [.flowEntry, .flowMappingEnd]
      let key ← nodeUnless (.value :: stops) false false fuel
      let value ← valueUnless stops false false fuel
      return (key, value) :: (← flowPairs false fuel)
    else if ← accept .flowMappingEnd then return []
    else
      let key ← node false false fuel
      return (key, ← addNothing) :: (← flowPairs false fuel)

end

/-! ## Documents -/

/-- The handles that every document has. -/
def standardHandles : List (String × String) := [("!", "!"), ("!!", Tag.common)]

/-- Take the directives in front of a document; `version` tells whether one with the version
has been among them. -/
def directives (version : Bool) (handles : List (String × String)) : Nat → Compose Unit
  | 0 => throw .document
  | fuel + 1 => do
    match ← peek with
    | some (.versionDirective major) =>
      if version || major ≠ 1 then throw .document
      skip
      directives true handles fuel
    | some (.tagDirective handle expansion) =>
      if (Entries.get? handle handles).isSome then throw .document
      skip
      directives version ((handle, expansion) :: handles) fuel
    | some .otherDirective =>
      skip
      directives version handles fuel
    | _ => modify fun s => { s with handles := handles ++ standardHandles }

/-- Pass the ends of documents. -/
def skipEnds : Nat → Compose Unit
  | 0 => throw .document
  | fuel + 1 => do if ← accept .documentEnd then skipEnds fuel

/-- Whether a token can only stand in front of a document. -/
def isOpening : Token → Bool
  | .versionDirective _ => true
  | .tagDirective .. => true
  | .otherDirective => true
  | .documentStart => true
  | _ => false

/-- Whether a document is empty that starts before a token or the end of the text. -/
def endsDocument : Option Token → Bool
  | none => true
  | some t => isOpening t || t = .documentEnd

/-- Read the node of a document. -/
def root (fuel : Nat) : Compose NodeId := do
  match ← peek with
  | some t =>
    if isOpening t then
      directives false [] fuel
      expect .documentStart
      if endsDocument (← peek) then addNothing else node true false fuel
    else node true false fuel
  | none => throw .document

/-- Read the only document, if there is one. -/
def only (fuel : Nat) : Compose (Option NodeId) := do
  if (← peek).isNone then return none
  let id ← root fuel
  skipEnds fuel
  if (← peek).isNone then return some id
  directives false [] fuel
  throw .document

end Compose

/-- The only document of a text, none if there is no document. -/
def Document.ofTokens (stream : TokenStream) : Except Malformed (Option Document) := do
  let start : Composer := ⟨stream, Compose.standardHandles, [], #[]⟩
  let (root, s) ← (Compose.only (4 * stream.tokens.length + 8)).run start
  return root.map fun root => ⟨s.nodes, root⟩

end RuleTree.Yaml
