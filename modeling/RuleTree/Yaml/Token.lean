import RuleTree.Yaml.Scalar
/-!
# YAML tokens

A YAML text is a sequence of tokens. Indentation becomes tokens for the start and
the end of block collections. A key without a mark of its own is recognised only
at its colon, on the same line and within 1024 characters; its tokens are put
where it started. `TokenStream.ofText` gives the tokens of a text. They are read
only as far as they are needed, so a fault shows after the tokens before it.
-/

namespace RuleTree.Yaml

/-- A token. -/
inductive Token where
  | versionDirective (major : Nat)
  | tagDirective (handle expansion : String)
  | otherDirective
  | documentStart
  | documentEnd
  | blockSequence
  | blockMapping
  | blockEnd
  | flowSequence
  | flowSequenceEnd
  | flowMapping
  | flowMappingEnd
  | blockEntry
  | flowEntry
  | key
  | value
  | alias (name : String)
  | anchor (name : String)
  /-- A tag without handle is complete. -/
  | tag (handle : Option String) (rest : String)
  | scalar (text : String) (plain : Bool)
  deriving DecidableEq

/-- The tokens of a text up to the first fault, and that fault if there is one. -/
structure TokenStream where
  tokens : List Token
  fault : Option Malformed

/-- Where a key may have started. -/
structure KeyStart where
  /-- The number of tokens before it. -/
  tokens : Nat
  /-- Whether nothing but a key can stand here. -/
  required : Bool
  index : Nat
  line : Nat
  column : Nat

/-- The state of the reading: what is left of the text, and the tokens among which others
may still be put. -/
structure Lexer where
  cursor : Cursor
  tokens : Array Token
  /-- The number of tokens before those. -/
  settled : Nat
  /-- The number of flow collections around. -/
  flowLevel : Nat
  /-- The column of the block collection around, `-1` outside of all. -/
  indent : Int
  /-- The columns of the collections around that one. -/
  outer : List Int
  /-- Whether a key without a mark may start. -/
  keysAllowed : Bool
  /-- The possible starts of keys by flow level. -/
  starts : List (Nat × KeyStart)

namespace Lexer

/-- The reading before the first token. -/
def start (text : List Char) : Lexer :=
  { cursor := .start text, tokens := #[], settled := 0, flowLevel := 0, indent := -1
    outer := [], keysAllowed := true, starts := [] }

/-- Whether the reading is inside a flow collection. -/
def inFlow (l : Lexer) : Bool := l.flowLevel ≠ 0

/-- Add a token. -/
def emit (l : Lexer) (t : Token) : Lexer := { l with tokens := l.tokens.push t }

/-- Add a token and pass its characters. -/
def emitPast (l : Lexer) (t : Token) (length : Nat) : Lexer :=
  { l.emit t with cursor := l.cursor.advance length }

/-- Put a token behind so many others. -/
def emitAt (l : Lexer) (count : Nat) (t : Token) : Lexer :=
  { l with tokens := l.tokens.insertIdxIfInBounds (count - l.settled) t }

/-! ## Possible keys -/

/-- The possible start of a key on this flow level. -/
def start? (l : Lexer) : Option KeyStart := l.starts.lookup l.flowLevel

/-- Forget the possible start on this flow level; a required key must not be forgotten. -/
def dropStart (l : Lexer) : Except Malformed Lexer :=
  match l.start? with
  | none => .ok l
  | some k =>
    if k.required then .error .document
    else .ok { l with starts := l.starts.filter fun (level, _) => level ≠ l.flowLevel }

/-- Note that a key may start here. -/
def noteStart (l : Lexer) : Except Malformed Lexer := do
  if l.keysAllowed then
    let required := !l.inFlow && l.indent = l.cursor.column
    let l ← l.dropStart
    let k : KeyStart :=
      ⟨l.settled + l.tokens.size, required, l.cursor.index, l.cursor.line, l.cursor.column⟩
    return { l with starts := (l.flowLevel, k) :: l.starts }
  else return l

/-- Whether a key that started there cannot have its colon here. -/
def isStale (l : Lexer) (k : KeyStart) : Bool :=
  k.line ≠ l.cursor.line || 1024 < l.cursor.index - k.index

/-- Forget the starts that are too far back. -/
def dropStale (l : Lexer) : Except Malformed Lexer :=
  if l.starts.any fun (_, k) => k.required && l.isStale k then .error .document
  else .ok { l with starts := l.starts.filter fun (_, k) => !l.isStale k }

/-! ## Indentation -/

/-- Go out of the collection around. -/
def closeBlock (l : Lexer) : Lexer :=
  { l.emit .blockEnd with indent := l.outer.head?.getD (-1), outer := l.outer.tail }

/-- End some collections, at most, that lie deeper than a column. -/
def closeBlocks (l : Lexer) (column : Int) : Nat → Lexer
  | 0 => l
  | count + 1 => if column < l.indent then l.closeBlock.closeBlocks column count else l

/-- End the block collections that lie deeper than a column. -/
def unwind (l : Lexer) (column : Int) : Lexer :=
  if l.inFlow then l else l.closeBlocks column (l.outer.length + 1)

/-- Whether a column lies deeper than the collection around. -/
def isDeeper (l : Lexer) (column : Nat) : Bool := l.indent < column

/-- Go into a collection at a column. -/
def indentTo (l : Lexer) (column : Nat) : Lexer :=
  { l with indent := column, outer := l.indent :: l.outer }

/-- Start a block collection here if this is deeper than the one around. -/
def openBlock (l : Lexer) (t : Token) : Lexer :=
  if l.isDeeper l.cursor.column then (l.emit t).indentTo l.cursor.column else l

/-! ## Marks -/

/-- Pass blanks, comments and line ends up to the next token. -/
def skipToToken (l : Lexer) : Nat → Lexer
  | 0 => l
  | fuel + 1 =>
    let c := l.cursor
    let c := if c.index = 0 && (c.peek.map Char.toNat) = some 0xFEFF then c.next else c
    match c.skipBlanks.skipComment.takeBreak with
    | ([], c) => { l with cursor := c }
    | (_, c) =>
      skipToToken { l with cursor := c, keysAllowed := l.keysAllowed || !l.inFlow } fuel

/-- Leave all block collections, before a directive or a separator. -/
def leaveDocument (l : Lexer) : Except Malformed Lexer := do
  let l ← (l.unwind (-1)).dropStart
  return { l with keysAllowed := false }

/-- Read a separator of documents. -/
def readSeparator (l : Lexer) (t : Token) : Except Malformed Lexer := do
  return (← l.leaveDocument).emitPast t 3

/-- Read the start of a flow collection. -/
def readFlowStart (l : Lexer) (t : Token) : Except Malformed Lexer := do
  let l ← l.noteStart
  return { l.emitPast t 1 with flowLevel := l.flowLevel + 1, keysAllowed := true }

/-- Read the end of a flow collection. -/
def readFlowEnd (l : Lexer) (t : Token) : Except Malformed Lexer := do
  let l ← l.dropStart
  return { l.emitPast t 1 with flowLevel := l.flowLevel - 1, keysAllowed := false }

/-- Read the mark between the entries of a flow collection. -/
def readFlowEntry (l : Lexer) : Except Malformed Lexer := do
  let l ← { l with keysAllowed := true }.dropStart
  return l.emitPast .flowEntry 1

/-- Read the mark of an entry of a block sequence. -/
def readBlockEntry (l : Lexer) : Except Malformed Lexer := do
  if !l.inFlow && !l.keysAllowed then throw .document
  let l := if l.inFlow then l else l.openBlock .blockSequence
  let l ← { l with keysAllowed := true }.dropStart
  return l.emitPast .blockEntry 1

/-- Read the mark of a key. -/
def readKey (l : Lexer) : Except Malformed Lexer := do
  if !l.inFlow && !l.keysAllowed then throw .document
  let l := if l.inFlow then l else l.openBlock .blockMapping
  let l ← { l with keysAllowed := !l.inFlow }.dropStart
  return l.emitPast .key 1

/-- Read the mark of a value. If a key may have started on the line, it did. -/
def readValue (l : Lexer) : Except Malformed Lexer := do
  match l.start? with
  | some k =>
    let l := { l with starts := l.starts.filter fun (level, _) => level ≠ l.flowLevel }
    let l := l.emitAt k.tokens .key
    let l :=
      if !l.inFlow && l.isDeeper k.column then
        (l.emitAt k.tokens .blockMapping).indentTo k.column
      else l
    return { l with keysAllowed := false }.emitPast .value 1
  | none =>
    if !l.inFlow && !l.keysAllowed then throw .document
    let l := if l.inFlow then l else l.openBlock .blockMapping
    let l ← { l with keysAllowed := !l.inFlow }.dropStart
    return l.emitPast .value 1

/-! ## Names and tags -/

/-- Read the name of an anchor or an alias behind its sign. -/
def readName (c : Cursor) : Except Malformed (String × Cursor) :=
  let (name, c) := c.next.takeWhile isNameChar
  let ends := match c.peek with
    | none => true
    | some char => isSpace char || "?:,]\x7d%@\x60".toList.contains char
  if name.isEmpty || !ends then .error .document else .ok (String.ofList name, c)

/-- Whether a character may stand in a tag. -/
def isTagChar (c : Char) : Bool :=
  c.isAlphanum || "-;/?:@&=+$,_.!~*'()[]".toList.contains c

/-- Read the characters of a tag. Escaped bytes are decoded together. -/
def readTagText (c : Cursor) (text : List Char) (bytes : List UInt8) :
    Nat → Except Malformed (List Char × Cursor)
  | 0 => .error .document
  | fuel + 1 =>
    let flushed : Except Malformed (List Char) :=
      match String.fromUTF8? ⟨bytes.toArray⟩ with
      | some s => .ok (text ++ s.toList)
      | none => .error .document
    match c.peek with
    | some '%' =>
      match ((c.peek 1).bind Text.hexValue?), ((c.peek 2).bind Text.hexValue?) with
      | some high, some low =>
        readTagText (c.advance 3) text (bytes ++ [UInt8.ofNat (high * 16 + low)]) fuel
      | _, _ => .error .document
    | some char => do
      let text ← flushed
      if isTagChar char then readTagText c.next (text ++ [char]) [] fuel else return (text, c)
    | none => do return (← flushed, c)

/-- Read the text of a tag, which is not empty. -/
def readTagRest (c : Cursor) : Except Malformed (String × Cursor) := do
  let (text, c) ← readTagText c [] [] (c.size + 1)
  if text.isEmpty then throw .document else return (String.ofList text, c)

/-- Read the handle of a tag: one exclamation mark or a name between two. -/
def readHandle (c : Cursor) : Except Malformed (String × Cursor) :=
  if !c.sees '!' then .error .document
  else if c.peek 1 = some ' ' then .ok ("!", c.next)
  else
    let (name, c) := c.next.takeWhile isNameChar
    if c.sees '!' then .ok ("!" ++ String.ofList name ++ "!", c.next) else .error .document

/-- Whether a tag has a second exclamation mark before its end. -/
def hasHandle (c : Cursor) : Bool :=
  ((c.rest.drop 1).takeWhile fun char => !(char = ' ' || isBreak char)).contains '!'

/-- Read a tag. -/
def readTag (c : Cursor) : Except Malformed (Token × Cursor) := do
  let (tag, c) ←
    if c.peek 1 = some '<' then do
      let (rest, c) ← readTagRest (c.advance 2)
      if c.sees '>' then pure (Token.tag none rest, c.next) else throw .document
    else if endsWord (c.peek 1) then pure (Token.tag none "!", c.next)
    else do
      let (handle, c) ← if hasHandle c then readHandle c else pure ("!", c.next)
      let (rest, c) ← readTagRest c
      pure (Token.tag (some handle) rest, c)
  if endsField c.peek then return (tag, c) else throw .document

/-! ## Directives -/

/-- Read a number of a version. -/
def readVersionPart (c : Cursor) : Except Malformed (Nat × Cursor) :=
  let (digits, c) := c.takeWhile Char.isDigit
  if digits.isEmpty then .error .document else .ok (Text.digitsValue digits, c)

/-- Read a version. -/
def readVersion (c : Cursor) : Except Malformed (Token × Cursor) := do
  let (major, c) ← readVersionPart c.skipBlanks
  if !c.sees '.' then throw .document
  let (_, c) ← readVersionPart c.next
  if endsField c.peek then return (.versionDirective major, c) else throw .document

/-- Read a handle and what it stands for. -/
def readTagDirective (c : Cursor) : Except Malformed (Token × Cursor) := do
  let (handle, c) ← readHandle c.skipBlanks
  if !c.sees ' ' then throw .document
  let (expansion, c) ← readTagRest c.skipBlanks
  if endsField c.peek then return (.tagDirective handle expansion, c) else throw .document

/-- Read a directive behind its sign. -/
def readDirective (c : Cursor) : Except Malformed (Token × Cursor) := do
  let (name, c) := c.takeWhile isNameChar
  if name.isEmpty || !endsField c.peek then throw .document
  let (t, c) ←
    if name = "YAML".toList then readVersion c
    else if name = "TAG".toList then readTagDirective c
    else pure (Token.otherDirective, c.skipLine)
  return (t, ← c.finishLine)

/-! ## Tokens -/

/-- Add a token and go on behind it; no key can follow. -/
def emitNode (l : Lexer) (t : Token) (c : Cursor) : Lexer :=
  { l.emit t with cursor := c, keysAllowed := false }

/-- Whether a plain scalar starts here. -/
def startsPlain (l : Lexer) (char : Char) : Bool :=
  !(isSpace char || "-?:,[]\x7b\x7d#&*!|>'\"%@\x60".toList.contains char) ||
    (!endsWord (l.cursor.peek 1) &&
      (char = '-' || (!l.inFlow && (char = '?' || char = ':'))))

/-- Read a token that may be a key. -/
def readNode (l : Lexer) (read : Cursor → Except Malformed (Token × Cursor)) :
    Except Malformed Lexer := do
  let l ← l.noteStart
  let (t, c) ← read l.cursor
  return l.emitNode t c

/-- Read a plain scalar; on a new line keys are allowed again. -/
def readPlainToken (l : Lexer) : Except Malformed Lexer := do
  let l ← l.noteStart
  let p := readPlain l.inFlow (l.indent + 1) l.cursor
  return { l.emitNode (.scalar (String.ofList p.text) true) p.cursor with keysAllowed := p.newLine }

/-- Read a quoted scalar. -/
def readQuotedToken (double : Bool) (c : Cursor) : Except Malformed (Token × Cursor) := do
  let (text, c) ← readQuoted double [] c.next (c.size + 1)
  return (.scalar (String.ofList text) false, c)

/-- Read a block scalar; keys are allowed behind it. -/
def readBlockToken (l : Lexer) (fold : Bool) : Except Malformed Lexer := do
  let l ← { l with keysAllowed := true }.dropStart
  let (text, c) ← readBlock fold l.indent l.cursor.next
  return { l.emit (.scalar (String.ofList text) false) with cursor := c }

/-- Read an anchor or an alias. -/
def readNameToken (token : String → Token) (c : Cursor) : Except Malformed (Token × Cursor) := do
  let (name, c) ← readName c
  return (token name, c)

/-- Read the token that starts with a character. -/
def readToken (l : Lexer) (char : Char) : Except Malformed Lexer := do
  let c := l.cursor
  let spaced := endsWord (c.peek 1)
  if c.column = 0 && char = '%' then
    let l ← l.leaveDocument
    let (t, c) ← readDirective c.next
    return { l.emit t with cursor := c }
  if c.column = 0 && c.seesMarks '-' then return ← l.readSeparator .documentStart
  if c.column = 0 && c.seesMarks '.' then return ← l.readSeparator .documentEnd
  if char = '[' then return ← l.readFlowStart .flowSequence
  if char = '\x7b' then return ← l.readFlowStart .flowMapping
  if char = ']' then return ← l.readFlowEnd .flowSequenceEnd
  if char = '\x7d' then return ← l.readFlowEnd .flowMappingEnd
  if char = ',' then return ← l.readFlowEntry
  if char = '-' && spaced then return ← l.readBlockEntry
  if char = '?' && (l.inFlow || spaced) then return ← l.readKey
  if char = ':' && (l.inFlow || spaced) then return ← l.readValue
  if char = '*' then return ← l.readNode (readNameToken .alias)
  if char = '&' then return ← l.readNode (readNameToken .anchor)
  if char = '!' then return ← l.readNode readTag
  if char = '|' && !l.inFlow then return ← l.readBlockToken false
  if char = '>' && !l.inFlow then return ← l.readBlockToken true
  if char = '\'' then return ← l.readNode (readQuotedToken false)
  if char = '"' then return ← l.readNode (readQuotedToken true)
  if l.startsPlain char then l.readPlainToken else throw .document

/-- Let go of the tokens in front of the first place where a key may have started. -/
def settle (l : Lexer) : List Token × Lexer :=
  let starts := l.starts.filter fun (_, k) => !l.isStale k
  let count := starts.foldl (fun n (_, k) => min n (k.tokens - l.settled)) l.tokens.size
  ((l.tokens.extract 0 count).toList,
    { l with tokens := l.tokens.extract count l.tokens.size, settled := l.settled + count })

/-- Read the next tokens; false at the end of the text. -/
def readNext (l : Lexer) : Except Malformed (Lexer × Bool) := do
  let l ← (l.skipToToken (l.cursor.size + 1)).dropStale
  let l := l.unwind l.cursor.column
  match l.cursor.peek with
  | none => return (← (l.unwind (-1)).dropStart, false)
  | some char => return (← l.readToken char, true)

/-- Read tokens to the end of the text or to a fault, behind those that have been read, which
come in reverse; each takes at least one character. -/
def readAll (read : List Token) (l : Lexer) : Nat → TokenStream
  | 0 => ⟨[], some .document⟩
  | fuel + 1 =>
    let (tokens, l) := l.settle
    let read := tokens.reverse ++ read
    match l.readNext with
    | .error e => ⟨read.reverse, some e⟩
    | .ok (l, true) => l.readAll read fuel
    | .ok (l, false) => ⟨read.reverse ++ l.tokens.toList, none⟩

end Lexer

namespace TokenStream

/-- How many characters are checked at once, before any of them is read. -/
def portion : Nat := 4096

/-- The tokens of a text. No token is read from a portion with a forbidden character or from
what follows it. -/
def ofText (text : List Char) : TokenStream :=
  match text.findIdx? fun c => !isAllowed c with
  | none => (Lexer.start text).readAll [] (text.length + 1)
  | some n =>
    let cs := text.take (n / portion * portion)
    let s := (Lexer.start cs).readAll [] (cs.length + 1)
    { s with fault := some (s.fault.getD .document) }

end TokenStream

end RuleTree.Yaml
