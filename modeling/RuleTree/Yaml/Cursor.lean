/-!
# Places in a text

A cursor is a place in a YAML text: what is left of it, with line and column.
Lines end with a newline, `U+0085`, `U+2028` or `U+2029`; carriage returns have
been turned into newlines before.
-/

namespace RuleTree.Yaml

/-- Why a YAML text has no value. -/
inductive Malformed where
  /-- The text is no single document with known tags. -/
  | document
  /-- A number, a date or the code of a character cannot be read. -/
  | number
  /-- A number is too large for a double, or a code for the numbers of codes. -/
  | overflow
  /-- A text is tagged as a number but has no digits at all. -/
  | emptyNumber
  /-- A text is tagged as a truth value but is no word for one. -/
  | truthWord
  /-- A text is tagged as a date but has not the form of one. -/
  | dateForm
  /-- A mapping is tagged as a date. -/
  | dateMapping
  /-- A key is a scalar but no text. -/
  | key
  deriving DecidableEq

/-! ## Characters -/

/-- Whether a character ends a line. -/
def isBreak (c : Char) : Bool :=
  c = '\n' || c.toNat = 0x85 || c.toNat = 0x2028 || c.toNat = 0x2029

/-- Whether a character ends a word. -/
def isSpace (c : Char) : Bool := c = ' ' || c = '\t' || isBreak c

/-- Whether a word ends before the given character or the end of the text. -/
def endsWord : Option Char → Bool
  | none => true
  | some c => isSpace c

/-- Whether a line ends before the given character or the end of the text. -/
def endsLine : Option Char → Bool
  | none => true
  | some c => isBreak c

/-- Whether a line ends or a blank follows. -/
def endsField (c : Option Char) : Bool := endsLine c || c = some ' '

/-- Whether a character may stand in the name of an anchor. -/
def isNameChar (c : Char) : Bool := c.isAlphanum || c = '-' || c = '_'

/-- Whether a character may stand in a YAML text at all. -/
def isAllowed (c : Char) : Bool :=
  let n := c.toNat
  n = 0x9 || n = 0xa || n = 0xd || (0x20 ≤ n && n ≤ 0x7e) || n = 0x85 ||
    (0xa0 ≤ n && n ≤ 0xd7ff) || (0xe000 ≤ n && n ≤ 0xfffd) || 0x10000 ≤ n

/-! ## Cursors -/

/-- A place in a text. -/
structure Cursor where
  rest : List Char
  index : Nat
  line : Nat
  column : Nat
  /-- The length of the whole text, which no loop over a part of it outruns. -/
  size : Nat

namespace Cursor

/-- The start of a text. -/
def start (text : List Char) : Cursor := ⟨text, 0, 0, 0, text.length⟩

/-- The character some places ahead. -/
def peek (c : Cursor) (ahead : Nat := 0) : Option Char := c.rest[ahead]?

/-- Whether the next character is the given one. -/
def sees (c : Cursor) (char : Char) : Bool := c.peek = some char

/-- Pass one character. A byte order mark takes no column. -/
def next (c : Cursor) : Cursor :=
  match c.rest with
  | [] => c
  | char :: rest =>
    let c := { c with rest, index := c.index + 1 }
    if isBreak char then { c with line := c.line + 1, column := 0 }
    else if char.toNat = 0xFEFF then c
    else { c with column := c.column + 1 }

/-- Pass some characters. -/
def advance (c : Cursor) : Nat → Cursor
  | 0 => c
  | n + 1 => c.next.advance n

/-- Take the characters of a class. -/
def takeWhile (c : Cursor) (p : Char → Bool) : List Char × Cursor :=
  let taken := c.rest.takeWhile p
  (taken, c.advance taken.length)

/-- Pass the characters of a class. -/
def skipWhile (c : Cursor) (p : Char → Bool) : Cursor := (c.takeWhile p).2

/-- Pass blanks. -/
def skipBlanks (c : Cursor) : Cursor := c.skipWhile (· = ' ')

/-- Pass the rest of the line. -/
def skipLine (c : Cursor) : Cursor := c.skipWhile fun char => !isBreak char

/-- Pass a comment, if there is one. -/
def skipComment (c : Cursor) : Cursor := if c.sees '#' then c.skipLine else c

/-- Take the end of a line, if it is here; `U+0085` becomes a newline. -/
def takeBreak (c : Cursor) : List Char × Cursor :=
  match c.peek with
  | some char =>
    if isBreak char then ([if char.toNat = 0x85 then '\n' else char], c.next) else ([], c)
  | none => ([], c)

/-- Pass blanks and a comment up to the next line. -/
def finishLine (c : Cursor) : Except Malformed Cursor :=
  let c := c.skipBlanks.skipComment
  if endsLine c.peek then .ok c.takeBreak.2 else .error .document

/-- Pass blanks as long as the column is below a limit. -/
def skipIndent (c : Cursor) (limit : Nat) : Nat → Cursor
  | 0 => c
  | fuel + 1 => if c.column < limit && c.sees ' ' then c.next.skipIndent limit fuel else c

/-- Whether three marks that separate documents are here. -/
def seesMarks (c : Cursor) (mark : Char) : Bool :=
  c.peek = some mark && c.peek 1 = some mark && c.peek 2 = some mark && endsWord (c.peek 3)

/-- Whether a document ends or starts here. -/
def seesSeparator (c : Cursor) : Bool := c.seesMarks '-' || c.seesMarks '.'

end Cursor

end RuleTree.Yaml
