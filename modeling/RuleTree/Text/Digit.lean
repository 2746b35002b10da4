import RuleTree.Text.Blank
/-!
# Digits

A decimal digit is a character that stands for a number from zero to nine in
positional notation; every script keeps its ten in a row. Superscripts, circled
numbers and the like are digits too, but not decimal ones: a text of digits is an
index only if all of them are decimal. Numbers are neither read from nor written with
more than `digitLimit` digits.
-/

namespace RuleTree.Text

/-- The zeros of the decimal digits; the other nine of each follow it. -/
def decimalZeros : List Nat :=
  [0x30, 0x660, 0x6f0, 0x7c0, 0x966, 0x9e6, 0xa66, 0xae6, 0xb66, 0xbe6,
   0xc66, 0xce6, 0xd66, 0xde6, 0xe50, 0xed0, 0xf20, 0x1040, 0x1090, 0x17e0,
   0x1810, 0x1946, 0x19d0, 0x1a80, 0x1a90, 0x1b50, 0x1bb0, 0x1c40, 0x1c50, 0xa620,
   0xa8d0, 0xa900, 0xa9d0, 0xa9f0, 0xaa50, 0xabf0, 0xff10, 0x104a0, 0x10d30, 0x11066,
   0x110f0, 0x11136, 0x111d0, 0x112f0, 0x11450, 0x114d0, 0x11650, 0x116c0, 0x11730, 0x118e0,
   0x11950, 0x11c50, 0x11d50, 0x11da0, 0x16a60, 0x16ac0, 0x16b50, 0x1d7ce, 0x1d7d8, 0x1d7e2,
   0x1d7ec, 0x1d7f6, 0x1e140, 0x1e2f0, 0x1e950, 0x1fbf0]

/-- The digits that are not decimal, as ranges of code points. -/
def otherDigitRanges : List (Nat × Nat) :=
  [(0xb2, 0xb3), (0xb9, 0xb9), (0x1369, 0x1371), (0x19da, 0x19da), (0x2070, 0x2070),
   (0x2074, 0x2079), (0x2080, 0x2089), (0x2460, 0x2468), (0x2474, 0x247c), (0x2488, 0x2490),
   (0x24ea, 0x24ea), (0x24f5, 0x24fd), (0x24ff, 0x24ff), (0x2776, 0x277e), (0x2780, 0x2788),
   (0x278a, 0x2792), (0x10a40, 0x10a43), (0x10e60, 0x10e68), (0x11052, 0x1105a),
   (0x1f100, 0x1f10a)]

/-- The value of a decimal digit. -/
def digitValue? (c : Char) : Option Nat :=
  (decimalZeros.find? fun first => decide (first ≤ c.toNat ∧ c.toNat < first + 10)).map
    fun first => c.toNat - first

/-- Whether a character is a decimal digit. -/
def isDecimal (c : Char) : Bool := (digitValue? c).isSome

/-- Whether a character is a digit of any kind. -/
def isDigit (c : Char) : Bool := isDecimal c || inRanges otherDigitRanges c.toNat

/-- The value of an ASCII hexadecimal digit. -/
def hexValue? (c : Char) : Option Nat :=
  if c.isDigit then some (c.toNat - '0'.toNat)
  else if 'a' ≤ c ∧ c ≤ 'f' then some (c.toNat - 'a'.toNat + 10)
  else if 'A' ≤ c ∧ c ≤ 'F' then some (c.toNat - 'A'.toNat + 10)
  else none

/-- The number that the decimal digits write, others counting as zero. -/
def digitsValue (cs : List Char) : Nat :=
  cs.foldl (fun value c => 10 * value + (digitValue? c).getD 0) 0

/-- The largest number of digits that an integer is read from or written with; zeros in
front count. -/
def digitLimit : Nat := 4300

/-- Whether a number can be written. -/
def isWritable (n : Nat) : Bool := decide ((Nat.toDigits 10 n).length ≤ digitLimit)

/-- What a text means as a position in a list. -/
inductive Index where
  /-- It is no sequence of digits. -/
  | notDigits
  /-- It has a digit without a place value, or too many digits. -/
  | malformed
  | position (n : Nat)
  deriving DecidableEq

/-- Read a text as a position. -/
def readIndex (cs : List Char) : Index :=
  if cs.isEmpty || !cs.all isDigit then .notDigits
  else if cs.all isDecimal && decide (cs.length ≤ digitLimit) then .position (digitsValue cs)
  else .malformed

end RuleTree.Text
