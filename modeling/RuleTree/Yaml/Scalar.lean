import RuleTree.Yaml.Cursor
import RuleTree.Text.Digit
import RuleTree.Value.Basic
/-!
# The texts of scalars

A scalar is plain, in single or double quotes, or a block of lines. Each reader
takes the text of one scalar off a cursor and gives the place behind it. Line ends
inside plain and quoted scalars are folded: one becomes a blank, of several the
first is dropped.
-/

namespace RuleTree.Yaml

/-- What a line end and the empty lines behind it become in a folded text. -/
def folded (lineEnd empties : List Char) : List Char :=
  (if lineEnd ≠ ['\n'] then lineEnd else if empties.isEmpty then [' '] else []) ++ empties

/-! ## Plain scalars -/

/-- Whether a character is a mark of flow collections that ends a plain scalar. -/
def isFlowMark (c : Char) : Bool :=
  c = ',' || c = '?' || c = '[' || c = ']' || c = '\x7b' || c = '\x7d'

/-- Whether a colon before the given character ends a plain scalar. -/
def colonEnds (inFlow : Bool) (next : Option Char) : Bool :=
  endsWord next ||
    (inFlow && (next = some ',' || next = some '[' || next = some ']' ||
      next = some '\x7b' || next = some '\x7d'))

/-- The word of a plain scalar at the front of a text. -/
def plainWord (inFlow : Bool) : List Char → List Char
  | [] => []
  | c :: rest =>
    if isSpace c || (c = ':' && colonEnds inFlow rest.head?) || (inFlow && isFlowMark c) then []
    else c :: plainWord inFlow rest

/-- A plain scalar. -/
structure Plain where
  text : List Char
  cursor : Cursor
  /-- Whether the reading went on to a new line. -/
  newLine : Bool

/-- Pass blanks and line ends inside a plain scalar; gives the line ends, or none in front
of a separator. -/
def plainBreaks (c : Cursor) : Nat → Option (List Char) × Cursor
  | 0 => (some [], c)
  | fuel + 1 =>
    if c.sees ' ' then plainBreaks c.next fuel
    else match c.takeBreak with
      | ([], c) => (some [], c)
      | (lineEnd, c) =>
        if c.seesSeparator then (none, c)
        else
          let (more, c) := plainBreaks c fuel
          (more.map (lineEnd ++ ·), c)

/-- Pass what stands between two words; gives what it becomes in the text, nothing where
the scalar ends. -/
def plainGap (c : Cursor) : List Char × Cursor × Bool :=
  let (blanks, c) := c.takeWhile (· = ' ')
  match c.takeBreak with
  | ([], c) => (blanks, c, false)
  | (lineEnd, c) =>
    if c.seesSeparator then ([], c, true)
    else match plainBreaks c (c.size + 1) with
      | (some empties, c) => (folded lineEnd empties, c, true)
      | (none, c) => ([], c, true)

/-- Read words as long as they belong to the scalar; `gap` stands before the next one. The
text comes in reverse. -/
def plainWords (inFlow : Bool) (indent : Int) (p : Plain) (gap : List Char) : Nat → Plain
  | 0 => p
  | fuel + 1 =>
    let word := plainWord inFlow p.cursor.rest
    if p.cursor.sees '#' || word.isEmpty then p
    else
      let (next, cursor, newLine) := plainGap (p.cursor.advance word.length)
      let p := { text := word.reverse ++ (gap.reverse ++ p.text), cursor, newLine }
      if next.isEmpty || cursor.sees '#' || (!inFlow && (cursor.column : Int) < indent) then p
      else plainWords inFlow indent p next fuel

/-- Read a plain scalar. In block context its lines lie at the indent or deeper. -/
def readPlain (inFlow : Bool) (indent : Int) (c : Cursor) : Plain :=
  let p := plainWords inFlow indent ⟨[], c, false⟩ [] (c.size + 1)
  { p with text := p.text.reverse }

/-! ## Quoted scalars -/

/-- The line ends up to the next character of a quoted scalar; a separator is an error. -/
def quotedBreaks (c : Cursor) : Nat → Except Malformed (List Char × Cursor)
  | 0 => .error .document
  | fuel + 1 =>
    if c.seesSeparator then .error .document
    else
      let c := c.skipWhile fun char => char = ' ' || char = '\t'
      match c.takeBreak with
      | ([], c) => .ok ([], c)
      | (lineEnd, c) => do
        let (more, c) ← quotedBreaks c fuel
        return (lineEnd ++ more, c)

/-- The character that an escape of one letter stands for. -/
def escapeValue? (c : Char) : Option Char :=
  (Entries.get? c.toString [
    ("0", 0x0), ("a", 0x7), ("b", 0x8), ("t", 0x9), ("\t", 0x9), ("n", 0xa), ("v", 0xb),
    ("f", 0xc), ("r", 0xd), ("e", 0x1b), (" ", 0x20), ("\"", 0x22), ("\\", 0x5c), ("/", 0x2f),
    ("N", 0x85), ("_", 0xa0), ("L", 0x2028), ("P", 0x2029)]).map Char.ofNat

/-- The number of hexadecimal digits behind an escape letter. -/
def escapeWidth? (c : Char) : Option Nat :=
  if c = 'x' then some 2 else if c = 'u' then some 4 else if c = 'U' then some 8 else none

/-- The character with a code, which has 31 bits. Half of a surrogate pair is replaced. -/
def charOfCode (code : Nat) : Except Malformed Char :=
  if 0x7FFFFFFF < code then .error .overflow
  else if 0x10FFFF < code then .error .number
  else if 0xD800 ≤ code ∧ code ≤ 0xDFFF then .ok (Char.ofNat 0xFFFD)
  else .ok (Char.ofNat code)

/-- Read what stands behind a backslash. -/
def readEscape (c : Cursor) : Except Malformed (List Char × Cursor) :=
  match c.peek with
  | none => .error .document
  | some char =>
    match escapeValue? char, escapeWidth? char with
    | some value, _ => .ok ([value], c.next)
    | none, some width => do
      let digits := (c.rest.drop 1).take width
      let some values := digits.mapM Text.hexValue? | throw .document
      if values.length < width then throw .document
      let value ← charOfCode (values.foldl (fun code d => code * 16 + d) 0)
      return ([value], c.advance (width + 1))
    | none, none =>
      if isBreak char then do
        let c := c.takeBreak.2
        quotedBreaks c (c.size + 1)
      else .error .document

/-- Read the blanks and line ends between two words of a quoted scalar. -/
def quotedGap (c : Cursor) : Except Malformed (List Char × Cursor) := do
  let (blanks, c) := c.takeWhile fun char => char = ' ' || char = '\t'
  match c.takeBreak with
  | ([], c) => if c.rest.isEmpty then throw .document else return (blanks, c)
  | (lineEnd, c) => do
    let (empties, c) ← quotedBreaks c (c.size + 1)
    return (folded lineEnd empties, c)

/-- Read a quoted scalar up to the closing quote; `read` holds what came before in
reverse. -/
def readQuoted (double : Bool) (read : List Char) (c : Cursor) :
    Nat → Except Malformed (List Char × Cursor)
  | 0 => .error .document
  | fuel + 1 =>
    match c.peek with
    | none => .error .document
    | some char =>
      if !double && char = '\'' && c.peek 1 = some '\'' then
        readQuoted double ('\'' :: read) (c.advance 2) fuel
      else if char = (if double then '"' else '\'') then .ok (read.reverse, c.next)
      else if double && char = '\\' then do
        let (escaped, c) ← readEscape c.next
        readQuoted double (escaped.reverse ++ read) c fuel
      else if isSpace char then do
        let (gap, c) ← quotedGap c
        readQuoted double (gap.reverse ++ read) c fuel
      else readQuoted double (char :: read) c.next fuel

/-! ## Block scalars -/

/-- What happens to the line ends at the end of a block scalar. -/
inductive Chomping where
  /-- The last one is kept. -/
  | clip
  /-- All are dropped. -/
  | strip
  /-- All are kept. -/
  | keep
  deriving DecidableEq

/-- The chomping that a mark asks for. -/
def chomping? : Option Char → Option Chomping
  | some '+' => some .keep
  | some '-' => some .strip
  | _ => none

/-- The indentation that a digit asks for. -/
def indentation? : Option Char → Option Nat
  | some c => if c.isDigit then some (c.toNat - '0'.toNat) else none
  | none => none

/-- Read the marks behind the sign of a block scalar: chomping and indentation in either
order. -/
def blockHeader (c : Cursor) : Except Malformed (Chomping × Option Nat × Cursor) := do
  let (chomping, increment, c) :=
    match chomping? c.peek with
    | some chomping =>
      match indentation? (c.peek 1) with
      | some n => (chomping, some n, c.advance 2)
      | none => (chomping, none, c.next)
    | none =>
      match indentation? c.peek with
      | some n =>
        match chomping? (c.peek 1) with
        | some chomping => (chomping, some n, c.advance 2)
        | none => (.clip, some n, c.next)
      | none => (.clip, none, c)
  if increment = some 0 then throw .document
  if endsField c.peek then return (chomping, increment, c) else throw .document

/-- Pass empty lines to find the indentation of the first line with content. -/
def blockIndentation (c : Cursor) (deepest : Nat) : Nat → List Char × Nat × Cursor
  | 0 => ([], deepest, c)
  | fuel + 1 =>
    if c.sees ' ' then blockIndentation c.next (max deepest c.next.column) fuel
    else match c.takeBreak with
      | ([], c) => ([], deepest, c)
      | (lineEnd, c) =>
        let (more, deepest, c) := blockIndentation c deepest fuel
        (lineEnd ++ more, deepest, c)

/-- Pass empty lines up to the given indentation. -/
def blockBreaks (indent : Nat) (c : Cursor) : Nat → List Char × Cursor
  | 0 => ([], c)
  | fuel + 1 =>
    let c := c.skipIndent indent (indent + 1)
    match c.takeBreak with
    | ([], c) => ([], c)
    | (lineEnd, c) =>
      let (more, c) := blockBreaks indent c fuel
      (lineEnd ++ more, c)

/-- Whether a line starts with content and not with a blank. -/
def startsFlush (c : Cursor) : Bool := c.peek ≠ some ' ' && c.peek ≠ some '\t'

/-- Read the lines of a block scalar; gives the text, the last line end and the empty
lines behind it. In a folded scalar a newline between two flush lines is a blank, or
nothing if empty lines follow. -/
def blockLines (fold : Bool) (indent : Nat) (text empties : List Char) (c : Cursor) :
    Nat → List Char × List Char × List Char × Cursor
  | 0 => (text, [], empties, c)
  | fuel + 1 =>
    let flush := startsFlush c
    let (line, c) := c.takeWhile fun char => !isBreak char
    let text := text ++ empties ++ line
    let (lineEnd, c) := c.takeBreak
    let (empties, c) := blockBreaks indent c (c.size + 1)
    if c.column = indent && !c.rest.isEmpty then
      let joint :=
        if fold && lineEnd = ['\n'] && flush && startsFlush c then
          (if empties.isEmpty then [' '] else [])
        else lineEnd
      blockLines fold indent (text ++ joint) empties c fuel
    else (text, lineEnd, empties, c)

/-- Read a block scalar behind its sign. Its lines lie deeper than the indent around it. -/
def readBlock (fold : Bool) (indent : Int) (c : Cursor) :
    Except Malformed (List Char × Cursor) := do
  let (chomping, increment, c) ← blockHeader c
  let c ← c.finishLine
  let least := max (indent + 1) 1
  let (empties, inner, c) :=
    match increment with
    | none =>
      let (empties, deepest, c) := blockIndentation c 0 (c.size + 1)
      (empties, max least.toNat deepest, c)
    | some n =>
      let inner := least.toNat + n - 1
      let (empties, c) := blockBreaks inner c (c.size + 1)
      (empties, inner, c)
  let (text, lineEnd, empties, c) :=
    if c.column = inner && !c.rest.isEmpty then
      blockLines fold inner [] empties c (c.size + 1)
    else ([], [], empties, c)
  let tail := match chomping with
    | .strip => []
    | .clip => lineEnd
    | .keep => lineEnd ++ empties
  return (text ++ tail, c)

end RuleTree.Yaml
