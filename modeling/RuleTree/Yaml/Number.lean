import RuleTree.Yaml.Cursor
import RuleTree.Text.Integer
import RuleTree.Text.Split
/-!
# Numbers in YAML

A text is tagged as a number by its form or by hand; in the second case it may be
anything. Integers are written in base 2, 8, 10, 16 or 60, doubles in base 10 or 60.
Underscores count for nothing, and digits of every script are read.
-/

namespace RuleTree.Yaml

/-- The value of a digit in a base up to sixteen. -/
def digit? (base : Nat) (c : Char) : Option Nat :=
  (Text.hexValue? c).filter fun n => n < base

/-- A decimal digit of any script as an ASCII one. -/
def asciiDigit (c : Char) : Char :=
  match Text.digitValue? c with
  | some n => Char.ofNat ('0'.toNat + n)
  | none => c

/-- The digits behind a zero and the letter of their base, if it is written. -/
def dropBase (letter : Char) : List Char → List Char
  | '0' :: c :: digits => if c.toLower = letter then digits else '0' :: c :: digits
  | cs => cs

/-- The integer that a text writes in a base, with a sign, the letter of the base and
white space around it. -/
def inBase (base : Nat) (letter : Char) (cs : List Char) : Except Malformed Int :=
  let (negative, cs) := Text.takeSign ((Text.trimBy Text.isWhiteSpace cs).map asciiDigit)
  let cs := dropBase letter cs
  match cs, cs.mapM (digit? base) with
  | _ :: _, some digits =>
    let n : Int := (digits.foldl (fun n d => n * base + d) 0 : Nat)
    .ok (if negative then -n else n)
  | _, _ => .error .number

/-- The integer that a text writes in base ten. -/
def decimal (cs : List Char) : Except Malformed Int :=
  match Text.readInteger? (String.ofList cs) with
  | some n => .ok n
  | none => .error .number

/-- The integer that a text without sign writes. -/
def integer (cs : List Char) : Except Malformed Int :=
  match cs with
  | [] => .error .emptyNumber
  | ['0'] => .ok 0
  | '0' :: 'b' :: digits => inBase 2 'b' digits
  | '0' :: 'x' :: digits => inBase 16 'x' digits
  | '0' :: _ => inBase 8 'o' cs
  | _ => do
    let parts ← (Text.split ':' cs).mapM decimal
    return parts.foldl (fun n part => n * 60 + part) 0

/-- The double that a text without colons writes. -/
def double (cs : List Char) : Except Malformed Double :=
  let cs := Text.trimBy Text.isWhiteSpace cs
  let (negative, body) := Text.takeSign cs
  if ["inf", "infinity"].contains (String.ofList body) then .ok (.infinity negative)
  else if body = "nan".toList then .ok .nan
  else match Text.readDecimal? body with
    | some d => .ok (.ofDecimal negative d.digits d.exponent)
    | none => .error .number

/-- The sum of parts weighted with the powers of sixty, the last part first; each weight
has to fit a double. -/
def sumSixtieths (weight : Nat) (sum : Double) : List Double → Except Malformed Double
  | [] => .ok sum
  | part :: rest =>
    match Double.ofInt? weight with
    | some factor => sumSixtieths (weight * 60) (sum.add (part.mul factor)) rest
    | none => .error .overflow

/-- The double that a text without sign writes. -/
def real (cs : List Char) : Except Malformed Double :=
  if cs = ".inf".toList then .ok (.infinity false)
  else if cs = ".nan".toList then .ok .nan
  else match Text.split ':' cs with
    | [_] => double cs
    | parts => do sumSixtieths 1 .zero (← parts.mapM double).reverse

/-- Read a number behind its sign, without the underscores. -/
def signed {α : Type} (text : String) (read : List Char → Except Malformed α)
    (opposite : α → α) : Except Malformed α :=
  match text.toList.filter (· ≠ '_') with
  | [] => .error .emptyNumber
  | '-' :: cs => (read cs).map opposite
  | '+' :: cs => read cs
  | cs => read cs

end RuleTree.Yaml
