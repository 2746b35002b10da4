import RuleTree.Number.Basic
import RuleTree.Text.Digit
/-!
# Numerals

A text counts as a number if, once trimmed, it is a decimal number with an
optional sign, fraction and exponent, or the word `Infinity`. Digits of every
script count. The result is a double, also without a fraction; a blank text is
the integer zero and every other text is NaN.
-/

namespace RuleTree.Text

/-- Take a sign off the front; true means minus. -/
def takeSign : List Char → Bool × List Char
  | '+' :: cs => (false, cs)
  | '-' :: cs => (true, cs)
  | cs => (false, cs)

/-- Split off the decimal digits at the front. -/
def takeDecimals (cs : List Char) : List Char × List Char :=
  (cs.takeWhile isDecimal, cs.dropWhile isDecimal)

/-- The digits before and after the decimal point, and what follows them. One side
may be empty, but not both. -/
def takeMantissa? (cs : List Char) : Option (List Char × List Char × List Char) :=
  match takeDecimals cs with
  | ([], '.' :: rest) =>
    match takeDecimals rest with
    | ([], _) => none
    | (fraction, rest) => some ([], fraction, rest)
  | ([], _) => none
  | (whole, '.' :: rest) =>
    let (fraction, rest) := takeDecimals rest
    some (whole, fraction, rest)
  | (whole, rest) => some (whole, [], rest)

/-- The exponent that a text ends with, zero if it is empty. -/
def readExponent? : List Char → Option Int
  | [] => some 0
  | c :: cs =>
    if c = 'e' || c = 'E' then
      let (negative, digits) := takeSign cs
      if digits.isEmpty || !digits.all isDecimal then none
      else
        let value : Int := digitsValue digits
        some (if negative then -value else value)
    else none

/-- The decimal number that a text without sign writes. -/
def readDecimal? (cs : List Char) : Option Double.Decimal := do
  let (whole, fraction, rest) ← takeMantissa? cs
  let exponent ← readExponent? rest
  return ⟨digitsValue (whole ++ fraction), exponent - fraction.length⟩

/-- The double that a trimmed text writes. -/
def readDouble? (cs : List Char) : Option Double :=
  let (negative, rest) := takeSign cs
  if rest = "Infinity".toList then some (.infinity negative)
  else (readDecimal? rest).map fun d => Double.ofDecimal negative d.digits d.exponent

/-- The number that a text counts as. -/
def toNumber (text : String) : Number :=
  match trim text.toList with
  | [] => .int 0
  | cs => .double ((readDouble? cs).getD .nan)

end RuleTree.Text
