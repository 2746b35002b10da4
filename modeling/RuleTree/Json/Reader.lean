import RuleTree.Text.Numeral
import RuleTree.Value.Basic
/-!
# JSON

A reader of JSON texts. Integers stay integers of any size, a number with a
fraction or an exponent becomes a double, and the words `NaN`, `Infinity` and
`-Infinity` are accepted. A repeated key keeps its first place and its last
value. A text that starts with a byte order mark is refused, as is a raw control
character inside a string.
-/

namespace RuleTree.Json

/-- The text is no JSON. -/
structure Malformed where
  deriving DecidableEq

/-! ## Blanks and words -/

/-- The blanks of JSON. -/
def isBlank (c : Char) : Bool := c = ' ' || c = '\t' || c = '\n' || c = '\r'

/-- The text behind the leading blanks. -/
def skipBlanks (cs : List Char) : List Char := cs.dropWhile isBlank

/-- The text behind a word that it starts with. -/
def dropWord? : List Char → List Char → Option (List Char)
  | [], cs => some cs
  | w :: ws, c :: cs => if w = c then dropWord? ws cs else none
  | _ :: _, [] => none

/-! ## Numbers -/

/-- The digits behind a decimal point, if there is at least one. -/
def takeFraction : List Char → List Char × List Char
  | '.' :: c :: cs =>
    if c.isDigit then ((c :: cs).takeWhile Char.isDigit, cs.dropWhile Char.isDigit)
    else ([], '.' :: c :: cs)
  | cs => ([], cs)

/-- The exponent, if it has at least one digit. -/
def takeExponent (cs : List Char) : Option Int × List Char :=
  match cs with
  | [] => (none, cs)
  | e :: rest =>
    if e = 'e' || e = 'E' then
      let (negative, rest) := Text.takeSign rest
      let digits := rest.takeWhile Char.isDigit
      if digits.isEmpty then (none, cs)
      else
        let value : Int := Text.digitsValue digits
        (some (if negative then -value else value), rest.dropWhile Char.isDigit)
    else (none, cs)

/-- Read a number without its sign. The whole part is zero or starts with another digit. -/
def readNumber (negative : Bool) (cs : List Char) : Except Malformed (Number × List Char) :=
  match cs with
  | [] => .error {}
  | c :: rest =>
    if !c.isDigit then .error {}
    else
      let (whole, rest) :=
        if c = '0' then ([c], rest) else (cs.takeWhile Char.isDigit, cs.dropWhile Char.isDigit)
      let (fraction, rest) := takeFraction rest
      let (exponent, rest) := takeExponent rest
      if fraction.isEmpty && exponent.isNone then
        let n : Int := Text.digitsValue whole
        .ok (.int (if negative then -n else n), rest)
      else
        let shift : Int := exponent.getD 0 - fraction.length
        .ok (.double (.ofDecimal negative (Text.digitsValue (whole ++ fraction)) shift), rest)

/-! ## Strings -/

/-- The number that four hexadecimal digits write. -/
def readHex4? : List Char → Option (Nat × List Char)
  | a :: b :: c :: d :: rest => do
    let a ← Text.hexValue? a
    let b ← Text.hexValue? b
    let c ← Text.hexValue? c
    let d ← Text.hexValue? d
    return (((a * 16 + b) * 16 + c) * 16 + d, rest)
  | _ => none

/-- The second half of a surrogate pair. -/
def readLowSurrogate? : List Char → Option (Nat × List Char)
  | '\\' :: 'u' :: rest => do
    let (low, rest) ← readHex4? rest
    if 0xDC00 ≤ low ∧ low ≤ 0xDFFF then return (low, rest) else none
  | _ => none

/-- The character behind `\u`. Half of a pair alone stands for no character and is
replaced. -/
def readUnicode (cs : List Char) : Except Malformed (Char × List Char) :=
  match readHex4? cs with
  | none => .error {}
  | some (unit, rest) =>
    if 0xD800 ≤ unit ∧ unit ≤ 0xDBFF then
      match readLowSurrogate? rest with
      | some (low, rest) =>
        .ok (Char.ofNat (0x10000 + (unit - 0xD800) * 0x400 + (low - 0xDC00)), rest)
      | none => .ok (Char.ofNat 0xFFFD, rest)
    else if 0xDC00 ≤ unit ∧ unit ≤ 0xDFFF then .ok (Char.ofNat 0xFFFD, rest)
    else .ok (Char.ofNat unit, rest)

/-- The character that an escape of one letter stands for. -/
def escapeValue? (c : Char) : Option Char :=
  if c = '"' || c = '\\' || c = '/' then some c
  else if c = 'b' then some (Char.ofNat 8)
  else if c = 'f' then some (Char.ofNat 12)
  else if c = 'n' then some '\n'
  else if c = 'r' then some '\r'
  else if c = 't' then some '\t'
  else none

/-- Read a string up to its closing quote; `read` holds what came before in reverse. -/
def readString : Nat → List Char → List Char → Except Malformed (String × List Char)
  | 0, _, _ => .error {}
  | _ + 1, _, [] => .error {}
  | fuel + 1, read, c :: cs =>
    if c = '"' then .ok (String.ofList read.reverse, cs)
    else if c.toNat < 0x20 then .error {}
    else if c = '\\' then
      match cs with
      | [] => .error {}
      | 'u' :: rest => do
        let (char, rest) ← readUnicode rest
        readString fuel (char :: read) rest
      | e :: rest =>
        match escapeValue? e with
        | some char => readString fuel (char :: read) rest
        | none => .error {}
    else readString fuel (c :: read) cs

/-! ## Values -/

mutual

/-- Read a value. -/
def readValue : Nat → List Char → Except Malformed (Value × List Char)
  | 0, _ => .error {}
  | fuel + 1, cs =>
    match cs with
    | [] => .error {}
    | '"' :: rest => do
      let (s, rest) ← readString (rest.length + 1) [] rest
      return (.str s, rest)
    | '[' :: rest =>
      match skipBlanks rest with
      | ']' :: rest => .ok (.ofList [], rest)
      | rest => do
        let (items, rest) ← readItems fuel rest
        return (.ofList items, rest)
    | '\x7b' :: rest =>
      match skipBlanks rest with
      | '\x7d' :: rest => .ok (.ofEntries [], rest)
      | rest => do
        let (entries, rest) ← readEntries fuel [] rest
        return (.ofEntries entries, rest)
    | '-' :: rest =>
      match dropWord? "Infinity".toList rest with
      | some rest => .ok (.num (.double (.infinity true)), rest)
      | none => do
        let (n, rest) ← readNumber true rest
        return (.num n, rest)
    | cs =>
      match dropWord? "null".toList cs with
      | some rest => .ok (.null, rest)
      | none =>
      match dropWord? "true".toList cs with
      | some rest => .ok (.bool true, rest)
      | none =>
      match dropWord? "false".toList cs with
      | some rest => .ok (.bool false, rest)
      | none =>
      match dropWord? "NaN".toList cs with
      | some rest => .ok (.num .nan, rest)
      | none =>
      match dropWord? "Infinity".toList cs with
      | some rest => .ok (.num (.double (.infinity false)), rest)
      | none => do
        let (n, rest) ← readNumber false cs
        return (.num n, rest)

/-- Read the items of a list that is not empty, up to its closing bracket. -/
def readItems : Nat → List Char → Except Malformed (List Value × List Char)
  | 0, _ => .error {}
  | fuel + 1, cs => do
    let (v, rest) ← readValue fuel cs
    match skipBlanks rest with
    | ']' :: rest => return ([v], rest)
    | ',' :: rest => do
      let (vs, rest) ← readItems fuel (skipBlanks rest)
      return (v :: vs, rest)
    | _ => .error {}

/-- Read the entries of a map that is not empty, up to its closing brace. -/
def readEntries : Nat → List (String × Value) → List Char →
    Except Malformed (List (String × Value) × List Char)
  | 0, _, _ => .error {}
  | fuel + 1, entries, '"' :: cs => do
    let (key, rest) ← readString (cs.length + 1) [] cs
    match skipBlanks rest with
    | ':' :: rest => do
      let (v, rest) ← readValue fuel (skipBlanks rest)
      let entries := Entries.put key v entries
      match skipBlanks rest with
      | '\x7d' :: rest => return (entries, rest)
      | ',' :: rest => readEntries fuel entries (skipBlanks rest)
      | _ => .error {}
    | _ => .error {}
  | _ + 1, _, _ => .error {}

end

/-- Read a whole text. Every step takes at least one character, so the length of the
text bounds the steps. -/
def read (text : String) : Except Malformed Value := do
  let cs := text.toList
  if cs.head? = some (Char.ofNat 0xFEFF) then throw {}
  let (v, rest) ← readValue (2 * cs.length + 2) (skipBlanks cs)
  if (skipBlanks rest).isEmpty then return v else throw {}

end RuleTree.Json
