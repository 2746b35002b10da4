import RuleTree.Text.Digit
/-!
# Dates

A date is a year in four digits, a month and a day; behind a `T` or blanks there may
be a time of day, with a fraction and an offset from universal time. A text can have
the form of a date and still name none, such as the thirteenth month.
-/

namespace RuleTree.Yaml

/-- What a text in the form of a date says; a fraction of a second is left out. -/
structure Timestamp where
  year : Nat
  month : Nat
  day : Nat
  /-- Hour, minute and second. -/
  time : Option (Nat × Nat × Nat)
  /-- The distance from universal time in minutes. -/
  offset : Nat

namespace Timestamp

/-! ## Reading -/

/-- Take a number of at least so many and at most so many digits. -/
def takeNumber? (least most : Nat) (cs : List Char) : Option (Nat × List Char) :=
  let digits := (cs.take most).takeWhile Char.isDigit
  if digits.length < least then none
  else some (Text.digitsValue digits, cs.drop digits.length)

/-- Pass a mark that has to be here. -/
def pass? (mark : Char) : List Char → Option (List Char)
  | [] => none
  | c :: rest => if c = mark then some rest else none

/-- Whether a character may stand around the time of day. -/
def isGap (c : Char) : Bool := c = ' ' || c = '\t'

/-- The distance from universal time that ends a text, in minutes; none is written as
nothing or as `Z`. -/
def readOffset? (cs : List Char) : Option Nat := do
  if cs.isEmpty then return 0
  match cs.dropWhile isGap with
  | ['Z'] => return 0
  | sign :: rest =>
    if sign ≠ '+' && sign ≠ '-' then none
    let (hours, rest) ← takeNumber? 1 2 rest
    if rest.isEmpty then return hours * 60
    let (minutes, rest) ← takeNumber? 2 2 (← pass? ':' rest)
    if rest.isEmpty then return hours * 60 + minutes else none
  | [] => none

/-- Pass what stands between a date and a time of day. -/
def passGap? : List Char → Option (List Char)
  | [] => none
  | c :: rest =>
    if c = 'T' || c = 't' then some rest
    else if isGap c then some (rest.dropWhile isGap)
    else none

/-- Pass a fraction, if there is one. -/
def skipFraction : List Char → List Char
  | '.' :: rest => rest.dropWhile Char.isDigit
  | cs => cs

/-- The time of day and the offset behind a date. -/
def readTime? (cs : List Char) : Option ((Nat × Nat × Nat) × Nat) := do
  let (hour, rest) ← takeNumber? 1 2 (← passGap? cs)
  let (minute, rest) ← takeNumber? 2 2 (← pass? ':' rest)
  let (second, rest) ← takeNumber? 2 2 (← pass? ':' rest)
  return ((hour, minute, second), ← readOffset? (skipFraction rest))

/-- Read a text that has the form of a date. -/
def read? (cs : List Char) : Option Timestamp := do
  let (year, rest) ← takeNumber? 4 4 cs
  let (month, rest) ← takeNumber? 1 2 (← pass? '-' rest)
  let (day, rest) ← takeNumber? 1 2 (← pass? '-' rest)
  if rest.isEmpty then return ⟨year, month, day, none, 0⟩
  let (time, offset) ← readTime? rest
  return ⟨year, month, day, some time, offset⟩

/-- Whether a text without a tag counts as a date; without a time of day, month and day
have two digits. -/
def isForm (cs : List Char) : Bool :=
  match read? cs with
  | some t => t.time.isSome || cs.length = 10
  | none => false

/-! ## The calendar -/

/-- Whether a year has a leap day. -/
def isLeap (year : Nat) : Bool := year % 4 = 0 && (year % 100 ≠ 0 || year % 400 = 0)

/-- The number of days in a month. -/
def daysIn (year month : Nat) : Nat :=
  if month = 2 then (if isLeap year then 29 else 28)
  else if [4, 6, 9, 11].contains month then 30
  else 31

/-- Whether there is such a time of day. -/
def isTime : Nat × Nat × Nat → Bool
  | (hour, minute, second) => hour < 24 && minute < 60 && second < 60

/-- Whether there is such a date; offsets stay below a day. -/
def isValid (t : Timestamp) : Bool :=
  1 ≤ t.year && 1 ≤ t.month && t.month ≤ 12 && 1 ≤ t.day && t.day ≤ daysIn t.year t.month &&
    t.time.all isTime && t.offset < 24 * 60

end Timestamp

end RuleTree.Yaml
