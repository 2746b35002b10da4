import RuleTree.Number.Double
/-!
# Decimal forms of doubles

`shortest` gives the decimal with the fewest digits that reads back as a double,
and of those the nearest to it. A decimal reads back as the double if it lies
between the midpoints to the two neighbouring doubles, the midpoints themselves
belonging to the double with the even significand. `ofDecimal` reads a decimal.
`Layout` says how digits and exponent are written, and `text` is the written
form of a double.
-/

namespace RuleTree.Double

/-! ## Decimals -/

/-- The number `digits * 10 ^ exponent`. -/
structure Decimal where
  digits : Nat
  exponent : Int
  deriving DecidableEq, Inhabited

/-- Numerator and denominator of a decimal in quarters of a step. -/
def Decimal.quarters (d : Decimal) : Nat × Nat :=
  (d.digits * Nat.pow 10 d.exponent.toNat * (4 * stepsPerOne), Nat.pow 10 (-d.exponent).toNat)

/-- The decimals that read back as a double, as bounds in quarters of a step. -/
structure Interval where
  low : Nat
  high : Nat
  /-- Whether the bounds themselves belong to it. -/
  closed : Bool

/-- The interval around a step count. Below a power of two the gap is half as wide,
unless the gap is already a single step. -/
def interval (steps : Nat) : Interval :=
  let width := gap steps
  let narrow := steps = Nat.pow 2 (Nat.log2 steps) ∧ 1 < width
  { low := 4 * steps - (if narrow then width else 2 * width)
    high := 4 * steps + 2 * width
    closed := steps / width % 2 = 0 }

/-- Whether a decimal lies in the interval. -/
def Interval.contains (i : Interval) (d : Decimal) : Bool :=
  let (num, den) := d.quarters
  if i.closed then decide (i.low * den ≤ num ∧ num ≤ i.high * den)
  else decide (i.low * den < num ∧ num < i.high * den)

/-- The distance of a decimal from `steps`, in quarters of a step over its denominator. -/
def Decimal.distance (d : Decimal) (steps : Nat) : Nat :=
  let (num, den) := d.quarters
  ((num : Int) - (4 * steps * den : Nat)).natAbs

/-- The decimal exponent of the leading digit of a positive step count: scaled by
`10 ^ 330` every positive double is at least one, so its digits can be counted. -/
def leadingExponent (steps : Nat) : Int :=
  ((Nat.toDigits 10 (steps * Nat.pow 10 330 / stepsPerOne)).length : Int) - 331

/-- The two neighbours of `steps` among the multiples of `10 ^ exponent`. -/
def neighbours (steps : Nat) (exponent : Int) : Decimal × Decimal :=
  let below :=
    steps * Nat.pow 10 (-exponent).toNat / (stepsPerOne * Nat.pow 10 exponent.toNat)
  (⟨below, exponent⟩, ⟨below + 1, exponent⟩)

/-- The nearer neighbour in the interval, if one is; of two equally near the even one. -/
def candidate? (steps : Nat) (exponent : Int) : Option Decimal :=
  let (below, above) := neighbours steps exponent
  let i := interval steps
  match i.contains below, i.contains above with
  | false, false => none
  | true, false => some below
  | false, true => some above
  | true, true =>
    let near := below.distance steps
    let far := above.distance steps
    if near < far ∨ near = far ∧ below.digits % 2 = 0 then some below else some above

/-- The first candidate over the grids of `exponent`, `exponent - 1` and so on. -/
def searchGrids (steps : Nat) (exponent : Int) : Nat → Option Decimal
  | 0 => none
  | grids + 1 =>
    match candidate? steps exponent with
    | some d => some d
    | none => searchGrids steps (exponent - 1) grids

/-- The shortest decimal that reads back as a positive step count; 17 digits always do. -/
def shortest (steps : Nat) : Decimal :=
  (searchGrids steps (leadingExponent steps) 17).getD ⟨0, 0⟩

/-! ## Reading a decimal -/

/-- The double nearest to `± digits * 10 ^ exponent`. Outside of `1e-330` to `1e310`
the answer is known without computing the power. -/
def ofDecimal (negative : Bool) (digits : Nat) (exponent : Int) : Double :=
  let magnitude : Int := (Nat.toDigits 10 digits).length + exponent
  if digits = 0 ∨ magnitude < -330 then finite negative 0
  else if 310 < magnitude then infinity negative
  else
    ofQuotient negative (digits * Nat.pow 10 exponent.toNat * stepsPerOne)
      (Nat.pow 10 (-exponent).toNat)

/-! ## Writing -/

/-- How the digits of a double are laid out. -/
structure Layout where
  /-- Leading exponents from here on are written positionally, … -/
  positionalFrom : Int
  /-- … up to this one. -/
  positionalTo : Int
  /-- What a positional text without a fraction ends with. -/
  whole : String
  /-- How many digits the exponent has at least. -/
  exponentDigits : Nat
  nanText : String
  infinityText : String

/-- Numbers are positional from `0.0001` to below `10 ^ 16` and keep a fraction;
exponents have a sign and two digits or more. -/
def layout : Layout :=
  { positionalFrom := -4, positionalTo := 15, whole := ".0", exponentDigits := 2
    nanText := "nan", infinityText := "inf" }

/-- `count` zeros. -/
def zeros (count : Nat) : String := String.ofList (List.replicate count '0')

/-- The digits without the zeros at their end. -/
def stripZeros (digits : List Char) : List Char :=
  (digits.reverse.dropWhile (· = '0')).reverse

/-- Digits with their leading exponent, written out with a decimal point. -/
def Layout.positional (l : Layout) (digits : List Char) (leading : Int) : String :=
  if leading < 0 then
    "0." ++ zeros (-leading - 1).toNat ++ String.ofList digits
  else
    let split := leading.toNat + 1
    if digits.length ≤ split then
      String.ofList digits ++ zeros (split - digits.length) ++ l.whole
    else
      String.ofList (digits.take split) ++ "." ++ String.ofList (digits.drop split)

/-- Digits with their leading exponent, one digit before the point. -/
def Layout.scientific (l : Layout) (digits : List Char) (leading : Int) : String :=
  let mantissa := String.ofList (digits.take 1) ++
    (if digits.length ≤ 1 then "" else "." ++ String.ofList (digits.drop 1))
  let exponent := toString leading.natAbs
  mantissa ++ (if leading < 0 then "e-" else "e+") ++
    zeros (l.exponentDigits - exponent.length) ++ exponent

/-- The text of a positive step count. -/
def Layout.magnitude (l : Layout) (steps : Nat) : String :=
  let d := shortest steps
  let all := Nat.toDigits 10 d.digits
  let leading : Int := d.exponent + all.length - 1
  let digits := stripZeros all
  if l.positionalFrom ≤ leading ∧ leading ≤ l.positionalTo then l.positional digits leading
  else l.scientific digits leading

/-- The text of a double in a layout. -/
def Layout.text (l : Layout) : Double → String
  | .nan => l.nanText
  | .infinity negative => (if negative then "-" else "") ++ l.infinityText
  | .finite negative steps =>
    (if negative then "-" else "") ++ (if steps = 0 then "0" ++ l.whole else l.magnitude steps)

/-- The text of a double. -/
def text (d : Double) : String := layout.text d

end RuleTree.Double
