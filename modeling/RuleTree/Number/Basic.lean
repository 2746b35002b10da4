import RuleTree.Number.Shortest
/-!
# Numbers

A number is an unbounded integer or a double. Integers stay exact among
themselves. Where an integer meets a double in arithmetic it is converted first,
which overflows beyond the doubles; comparisons never convert and are exact.
-/

namespace RuleTree

/-- An integer of any size or a double. -/
inductive Number where
  | int (n : Int)
  | double (d : Double)
  deriving DecidableEq, Inhabited

/-- An integer was too large to become a double. -/
structure Overflow where
  deriving DecidableEq

namespace Number

/-- A double that is there, an overflow if none is. -/
def orOverflow : Option Double → Except Overflow Double
  | some d => .ok d
  | none => .error {}

/-- The double without a value. -/
def nan : Number := .double .nan

/-- Convert to a double. -/
def toDouble : Number → Except Overflow Double
  | int n => orOverflow (Double.ofInt? n)
  | double d => .ok d

/-- Whether it is NaN; the integer itself has to fit a double. -/
def checkNaN (x : Number) : Except Overflow Bool :=
  return (← x.toDouble) = .nan

/-! ## Arithmetic -/

/-- Use the exact operation on two integers and the rounded one otherwise. -/
def arithmetic (exact : Int → Int → Int) (rounded : Double → Double → Double) :
    Number → Number → Except Overflow Number
  | int a, int b => .ok (int (exact a b))
  | x, y => return double (rounded (← x.toDouble) (← y.toDouble))

/-- The sum. -/
def add : Number → Number → Except Overflow Number := arithmetic (· + ·) Double.add

/-- The difference. -/
def sub : Number → Number → Except Overflow Number := arithmetic (· - ·) Double.sub

/-- The product. -/
def mul : Number → Number → Except Overflow Number := arithmetic (· * ·) Double.mul

/-- The quotient of two integers rounded once. Zero takes the sign of the divisor. -/
def divInts (a b : Int) : Except Overflow Double :=
  orOverflow (Double.ofQuotient (decide (a < 0) ^^ decide (b < 0))
    (a.natAbs * Double.stepsPerOne) b.natAbs).finite?

/-- Whether it equals zero. -/
def isZero : Number → Bool
  | int n => decide (n = 0)
  | double d => d.isZero

/-- The quotient, always a double. A zero divisor gives an infinity with the signs of
both, or NaN if the dividend is zero or NaN. -/
def div (x y : Number) : Except Overflow Number := do
  if y.isZero then
    if x.isZero then return nan
    if ← x.checkNaN then return nan
    return double (.infinity ((← x.toDouble).isNegative ^^ (← y.toDouble).isNegative))
  match x, y with
  | int a, int b => return double (← divInts a b)
  | x, y => return double ((← x.toDouble).div (← y.toDouble))

/-! ## Order -/

/-- Where a number lies, exactly; NaN has no place. -/
def place? : Number → Option Double.Place
  | int n => some (.count (n * Double.stepsPerOne))
  | double d => d.place?

/-- Whether the first number is smaller; false if one is NaN. -/
def less (x y : Number) : Bool :=
  match x.place?, y.place? with
  | some a, some b => a.before b
  | _, _ => false

/-- Whether two numbers are equal, whatever their types; NaN equals nothing. -/
def equal (x y : Number) : Bool :=
  match x.place?, y.place? with
  | some a, some b => decide (a = b)
  | _, _ => false

/-- The text of a number. -/
def text : Number → String
  | int n => toString n
  | double d => d.text

end Number

end RuleTree
