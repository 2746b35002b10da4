import RuleTree.Value.Basic
import RuleTree.Text.Numeral
/-!
# Values as numbers

Arithmetic takes every value as a number: null and maps are NaN, booleans one and
zero, texts as they are written. A list with one item counts as that item, with a
few exceptions, the empty list as zero and a longer one as NaN.
-/

namespace RuleTree.Value

/-- The number that a value counts as. -/
def toNumber : Value → Number
  | null => .nan
  | bool b => .int (if b then 1 else 0)
  | num n => n
  | str s => Text.toNumber s
  | list _ [] => .int 0
  | list _ [null] => .int 0
  | list _ [bool _] => .nan
  | list _ [map ..] => .nan
  | list _ [item] => item.toNumber
  | list .. => .nan
  | map .. => .nan

end RuleTree.Value
