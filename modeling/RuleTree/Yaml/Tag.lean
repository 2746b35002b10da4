import RuleTree.Yaml.Number
import RuleTree.Yaml.Timestamp
import RuleTree.Text.Base64
import RuleTree.Value.Basic
/-!
# Tags

A tag says what a node is. A scalar without a tag gets one by its form if it is
plain, and is a text otherwise. `Tag.scalar` gives the value of a scalar with a
tag; dates and encoded bytes keep their text.
-/

namespace RuleTree.Yaml

/-- What a node is. -/
inductive Tag where
  | null
  | bool
  | int
  | float
  | text
  | timestamp
  | binary
  | sequence
  | mapping
  /-- A mapping of which only the keys count. -/
  | set
  /-- A sequence of mappings with one pair each. -/
  | pairs
  /-- The key under which other mappings are merged in. -/
  | merge
  /-- The key that stands for the value of a mapping. -/
  | default
  | unknown
  deriving DecidableEq

namespace Tag

/-- What the names of the common tags start with. -/
def common : String := "tag:yaml.org,2002:"

/-- The tag with a full name. -/
def ofName (name : String) : Tag :=
  (Entries.get? name [
    (common ++ "null", null), (common ++ "bool", bool), (common ++ "int", int),
    (common ++ "float", float), (common ++ "str", text), (common ++ "timestamp", timestamp),
    (common ++ "binary", binary), (common ++ "seq", sequence), (common ++ "map", mapping),
    (common ++ "set", set), (common ++ "omap", pairs), (common ++ "pairs", pairs),
    (common ++ "merge", merge), (common ++ "value", default)]).getD unknown

/-- Whether what it marks is made of other nodes. -/
def isCollection (t : Tag) : Bool := [sequence, mapping, set, pairs].contains t

/-! ## Forms of scalars -/

/-- The words for null. -/
def nullWords : List String := ["", "~", "null", "Null", "NULL"]

/-- The words for truth values. -/
def boolWords : List String :=
  ["yes", "Yes", "YES", "no", "No", "NO", "true", "True", "TRUE", "false", "False", "FALSE",
   "on", "On", "ON", "off", "Off", "OFF"]

/-- The signs of tags, anchors and aliases, which stand for nothing on their own. -/
def bareSigns : List String := ["!", "&", "*"]

/-- A digit of a base, or an underscore. -/
def isDigitOf (base : Nat) (c : Char) : Bool := c = '_' || (digit? base c).isSome

/-- Text behind an optional sign. -/
def unsigned : List Char → List Char
  | '+' :: cs => cs
  | '-' :: cs => cs
  | cs => cs

/-- Whether a text is a number from 0 to 59 in one or two digits. -/
def isSixtieth : List Char → Bool
  | [d] => d.isDigit
  | [t, d] => t.isDigit && d.isDigit && decide (t ≤ '5')
  | _ => false

/-- Whether a text has the form of an integer. -/
def isIntForm (cs : List Char) : Bool :=
  match unsigned cs with
  | [] => false
  | '0' :: 'b' :: d :: rest => (d :: rest).all (isDigitOf 2)
  | '0' :: 'x' :: d :: rest => (d :: rest).all (isDigitOf 16)
  | '0' :: rest => rest.all (isDigitOf 8)
  | c :: rest =>
    '1' ≤ c && c ≤ '9' &&
      (match Text.split ':' rest with
      | [] => false
      | whole :: sixtieths => whole.all (isDigitOf 10) && sixtieths.all isSixtieth)

/-- Whether a text is empty or an exponent with a sign. -/
def isExponent : List Char → Bool
  | [] => true
  | e :: sign :: d :: rest =>
    (e = 'e' || e = 'E') && (sign = '+' || sign = '-') && (d :: rest).all Char.isDigit
  | _ => false

/-- Whether a text is digits behind a point and an exponent. -/
def isFraction (cs : List Char) : Bool :=
  isExponent (cs.dropWhile (isDigitOf 10))

/-- Whether a text has the form of a double. -/
def isFloatForm (cs : List Char) : Bool :=
  let body := unsigned cs
  let whole := body.takeWhile fun c => c ≠ '.'
  let rest := body.dropWhile fun c => c ≠ '.'
  match whole, rest with
  | [], '.' :: d :: fraction =>
    (cs = body && d.isDigit && isFraction fraction) ||
    [".inf", ".Inf", ".INF"].contains (String.ofList body) ||
    (cs = body && [".nan", ".NaN", ".NAN"].contains (String.ofList cs))
  | d :: _, '.' :: fraction =>
    d.isDigit &&
      (match Text.split ':' whole with
      | [] => false
      | [whole] => whole.all (isDigitOf 10) && isFraction fraction
      | whole :: sixtieths =>
        whole.all (isDigitOf 10) && sixtieths.all isSixtieth && fraction.all (isDigitOf 10))
  | _, _ => false

/-- A text without the newline at its end; a newline alone stays. -/
def dropNewline (cs : List Char) : List Char :=
  match cs.reverse with
  | '\n' :: c :: rest => (c :: rest).reverse
  | _ => cs

/-- The tag that the form of a scalar gives. A newline at the end does not matter. -/
def ofForm (text : String) : Tag :=
  let cs := dropNewline text.toList
  let word := String.ofList cs
  if nullWords.contains word then null
  else if boolWords.contains word then bool
  else if word = "<<" then merge
  else if word = "=" then default
  else if bareSigns.contains word then unknown
  else if isFloatForm cs then float
  else if isIntForm cs then int
  else if Timestamp.isForm cs then timestamp
  else .text

/-! ## Values of scalars -/

/-- The truth value of a word, in any case. -/
def truth (text : String) : Except Malformed Bool :=
  if ["yes", "true", "on"].contains text.toLower then .ok true
  else if ["no", "false", "off"].contains text.toLower then .ok false
  else .error .truthWord

/-- Make sure that a text names a date. -/
def checkDate (text : String) : Except Malformed Unit :=
  match Timestamp.read? (dropNewline text.toList) with
  | some t => if t.isValid then .ok () else .error .number
  | none => .error .dateForm

/-- The value of a scalar with a tag. -/
def scalar (tag : Tag) (text : String) : Except Malformed Value :=
  match tag with
  | .null => .ok .null
  | .bool => return .bool (← truth text)
  | .int => return .int (← signed text integer fun n => -n)
  | .float => return .num (.double (← signed text.toLower real Double.neg))
  | .text => .ok (.str text)
  | .timestamp => do
    checkDate text
    return .str text
  | .binary => if Text.isBase64 text.toList then .ok (.str text) else .error .document
  | _ => .error .document

end Tag

end RuleTree.Yaml
