import RuleTree.Text.Numeral
/-!
# Integers in texts

Two ways to write an integer. `readInteger?` takes a sign and digits of any
script, up to the limit, with single underscores between them. `readPositive?` takes what a form
field may hold for a positive number: ASCII digits with underscores, leading
zeros and a fraction of zeros.
-/

namespace RuleTree.Text

/-- The digits of a text in which an underscore may stand between two of them. -/
def joinedDigits? (isDigit : Char → Bool) : List Char → Option (List Char)
  | [] => none
  | [c] => if isDigit c then some [c] else none
  | c :: '_' :: rest => if isDigit c then (joinedDigits? isDigit rest).map (c :: ·) else none
  | c :: rest => if isDigit c then (joinedDigits? isDigit rest).map (c :: ·) else none

/-- The integer that a text writes, with white space around it. -/
def readInteger? (text : String) : Option Int :=
  let (negative, digits) := takeSign (trimBy isWhiteSpace text.toList)
  ((joinedDigits? isDecimal digits).filter (·.length ≤ digitLimit)).map fun digits =>
    let value : Int := digitsValue digits
    if negative then -value else value

/-- A text without the zeros and underscores in front of its first other digit; the last
of them stays in front of a decimal point and at the end. -/
def dropLeadingZeros : List Char → List Char
  | '0' :: rest =>
    let kept := rest.dropWhile fun c => c = '0' || c = '_'
    let last := (rest.takeWhile fun c => c = '0' || c = '_').getLast?.getD '0'
    match kept with
    | [] => [last]
    | '.' :: _ => last :: kept
    | _ => kept
  | cs => cs

/-- A text without a fraction of zeros only. -/
def dropZeroFraction (cs : List Char) : List Char :=
  match cs.dropWhile (· ≠ '.') with
  | '.' :: c :: fraction =>
    if (c :: fraction).all (· = '0') then cs.takeWhile (· ≠ '.') else cs
  | _ => cs

/-- The positive number that a text writes; other integers count as none. -/
def readPositive? (text : String) : Option Nat := do
  let cs := trimBy isWhiteSpace text.toList
  let cs := match cs with
    | '+' :: rest => rest
    | cs => cs
  let digits ← joinedDigits? Char.isDigit (dropZeroFraction (dropLeadingZeros cs))
  let value := digitsValue digits
  if value = 0 then none else some value

end RuleTree.Text
