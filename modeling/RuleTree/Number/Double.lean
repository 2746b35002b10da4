/-!
# Doubles

A double is NaN, an infinity or a signed count of steps of `2 ^ -1074`, the
smallest positive double: every finite double is a whole number of these steps.
A step count is representable if 53 binary digits hold it, and `roundSteps`
rounds an exact quotient to a representable one, an exact half going to the even
neighbour. Each operation computes exactly and rounds once.
-/

namespace RuleTree

/-- A double-precision number. -/
inductive Double where
  /-- The result of an operation without a value. -/
  | nan
  /-- A number beyond every finite one. -/
  | infinity (negative : Bool)
  /-- `steps` times `2 ^ -1074` on the given side of zero, so zero has two forms. -/
  | finite (negative : Bool) (steps : Nat)
  deriving DecidableEq, Inhabited

namespace Double

/-! ## Rounding -/

/-- The steps of `2 ^ -1074` that make one. -/
def stepsPerOne : Nat := Nat.pow 2 1074

/-- Step counts from here on, `2 ^ 1024` and more, are out of range. -/
def stepLimit : Nat := Nat.pow 2 2098

/-- The integer nearest to `num / den`, an exact half going to the even one. -/
def roundHalfEven (num den : Nat) : Nat :=
  let quotient := num / den
  let twice := 2 * (num % den)
  if twice < den then quotient
  else if den < twice then quotient + 1
  else if quotient % 2 = 0 then quotient
  else quotient + 1

/-- The size of the gap between the representable counts around `steps`. -/
def gap (steps : Nat) : Nat := Nat.pow 2 (Nat.log2 steps - 52)

/-- The representable step count nearest to `num / den`. -/
def roundSteps (num den : Nat) : Nat :=
  let width := gap (num / den)
  roundHalfEven num (den * width) * width

/-- The double nearest to `num / den` steps, an infinity if that is out of range. -/
def ofQuotient (negative : Bool) (num den : Nat) : Double :=
  let steps := roundSteps num den
  if steps < stepLimit then finite negative steps else infinity negative

/-- The double nearest to an exact signed number of steps. -/
def ofSignedSteps (steps : Int) : Double :=
  ofQuotient (decide (steps < 0)) steps.natAbs 1

/-- A double if it is finite. -/
def finite? : Double → Option Double
  | finite negative steps => some (finite negative steps)
  | _ => none

/-- The double nearest to an integer, none if it is out of range. -/
def ofInt? (n : Int) : Option Double :=
  (ofQuotient (decide (n < 0)) (n.natAbs * stepsPerOne) 1).finite?

/-- Positive zero. -/
def zero : Double := finite false 0

/-! ## Signs and zeros -/

/-- Whether it lies below zero or is the negative zero; NaN has no sign. -/
def isNegative : Double → Bool
  | nan => false
  | infinity negative => negative
  | finite negative _ => negative

/-- Whether it is one of the two zeros. -/
def isZero : Double → Bool
  | finite _ 0 => true
  | _ => false

/-- Whether it is neither NaN nor an infinity. -/
def isFinite : Double → Bool
  | finite _ _ => true
  | _ => false

/-- A step count with its sign. -/
def signedSteps (negative : Bool) (steps : Nat) : Int :=
  if negative then -(steps : Int) else steps

/-- The same number on the other side of zero. -/
def neg : Double → Double
  | nan => nan
  | infinity negative => infinity (!negative)
  | finite negative steps => finite (!negative) steps

/-! ## Arithmetic -/

/-- The rounded sum; a sum of exactly zero is positive unless both terms are
negative zeros. -/
def add : Double → Double → Double
  | nan, _ => nan
  | _, nan => nan
  | infinity s, infinity t => if s = t then infinity s else nan
  | infinity s, finite _ _ => infinity s
  | finite _ _, infinity t => infinity t
  | finite s a, finite t b =>
    let sum := signedSteps s a + signedSteps t b
    if sum = 0 then finite (s && t) 0 else ofSignedSteps sum

/-- The rounded difference. -/
def sub (x y : Double) : Double := add x y.neg

/-- The rounded product; zero times an infinity has no value. -/
def mul : Double → Double → Double
  | nan, _ => nan
  | _, nan => nan
  | infinity s, infinity t => infinity (s ^^ t)
  | infinity s, finite t b => if b = 0 then nan else infinity (s ^^ t)
  | finite s a, infinity t => if a = 0 then nan else infinity (s ^^ t)
  | finite s a, finite t b => ofQuotient (s ^^ t) (a * b) stepsPerOne

/-- The rounded quotient; a zero divisor gives an infinity, or NaN under a zero. -/
def div : Double → Double → Double
  | nan, _ => nan
  | _, nan => nan
  | infinity _, infinity _ => nan
  | infinity s, finite t _ => infinity (s ^^ t)
  | finite s _, infinity t => finite (s ^^ t) 0
  | finite s a, finite t b =>
    if b = 0 then (if a = 0 then nan else infinity (s ^^ t))
    else ofQuotient (s ^^ t) (a * stepsPerOne) b

/-! ## Order -/

/-- A place on the line of all numbers except NaN, counted in steps. -/
inductive Place where
  | belowAll
  | count (steps : Int)
  | aboveAll
  deriving DecidableEq

/-- Whether one place comes before another. -/
def Place.before : Place → Place → Bool
  | .belowAll, .belowAll => false
  | .belowAll, _ => true
  | .count a, .count b => decide (a < b)
  | .count _, .aboveAll => true
  | .count _, .belowAll => false
  | .aboveAll, _ => false

/-- Where a double lies; both zeros are at the same place and NaN has none. -/
def place? : Double → Option Place
  | nan => none
  | infinity true => some .belowAll
  | infinity false => some .aboveAll
  | finite negative steps => some (.count (signedSteps negative steps))

end Double

end RuleTree
