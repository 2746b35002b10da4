/-!
# Operators

The closed set of operators that an expression can apply, each with its symbol.
-/

namespace RuleTree

/-- What an expression applies to its operands. -/
inductive Operator where
  | add
  | subtract
  | multiply
  | divide
  | greater
  | less
  /-- The opposite of the truth of an operand. -/
  | negate
  /-- The truth of an operand. -/
  | truth
  /-- The first operand if it counts as true, else the second. -/
  | orElse
  | equal
  | notEqual
  | minimum
  | maximum
  /-- Whether some item of a list passes a template. -/
  | someItem
  /-- Whether every item of a list passes a template. -/
  | everyItem
  /-- Conditions with their results. -/
  | branch
  | allOf
  | anyOf
  /-- The fact at a path. -/
  | fact
  deriving DecidableEq, Inhabited

namespace Operator

/-- All operators. -/
def all : List Operator :=
  [add, subtract, multiply, divide, greater, less, negate, truth, orElse, equal, notEqual,
   minimum, maximum, someItem, everyItem, branch, allOf, anyOf, fact]

/-- The key that stands for the operator in an expression. -/
def symbol : Operator → String
  | add => "+"
  | subtract => "-"
  | multiply => "*"
  | divide => "/"
  | greater => ">"
  | less => "<"
  | negate => "!"
  | truth => "!!"
  | orElse => "||"
  | equal => "==="
  | notEqual => "!=="
  | minimum => "min"
  | maximum => "max"
  | someItem => "some"
  | everyItem => "every"
  | branch => "if"
  | allOf => "and"
  | anyOf => "or"
  | fact => "var"

/-- The operator with a symbol. -/
def ofSymbol? (symbol : String) : Option Operator :=
  all.find? fun op => op.symbol = symbol

theorem ofSymbol?_symbol (op : Operator) : ofSymbol? op.symbol = some op := by
  cases op <;> decide

/-- Whether the operands are taken as they are and not as numbers. -/
def keepsOperands : Operator → Bool
  | negate | truth | equal | notEqual => true
  | _ => false

end Operator

end RuleTree
