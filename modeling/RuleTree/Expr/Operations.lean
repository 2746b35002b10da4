import RuleTree.Value.Coerce
import RuleTree.Value.Equality
import RuleTree.Expr.Basic
/-!
# Operations

What the operators that evaluate all of their operands do with the results. A
missing operand is null.
-/

namespace RuleTree

namespace Number

/-- Whether every number stands in an order to the next. NaN stands in none, and the
check for NaN comes first and stops at the first pair that fails. -/
def chain (inOrder : Number → Number → Bool) : List Number → Except Overflow Bool
  | x :: y :: rest => do
    if ← x.checkNaN then return false
    if ← y.checkNaN then return false
    if inOrder x y then chain inOrder (y :: rest) else return false
  | _ => return true

/-- Whether one of the numbers is NaN. -/
def someNaN : List Number → Except Overflow Bool
  | [] => return false
  | x :: rest => do if ← x.checkNaN then return true else someNaN rest

/-- The number that no other one beats, the first of equal ones; NaN if one is NaN. -/
def extremum (beats : Number → Number → Bool) (empty : Number) :
    List Number → Except Overflow Number
  | [] => return empty
  | x :: rest => do
    if ← someNaN (x :: rest) then return nan
    return rest.foldl (fun best y => if beats y best then y else best) x

/-- The number at a position, NaN if there is none. -/
def operand (xs : List Number) (n : Nat) : Number := xs[n]?.getD nan

end Number

namespace Operator

/-- The value at a position, null if there is none. -/
def operand (vs : List Value) (n : Nat) : Value := vs[n]?.getD .null

/-- Apply an operator to operands taken as they are. -/
def applyToValues (op : Operator) (vs : List Value) : Value :=
  match op with
  | negate => .bool (!(operand vs 0).isTruthy)
  | truth => .bool (operand vs 0).isTruthy
  | equal => .bool ((operand vs 0).strictEquals (operand vs 1))
  | notEqual => .bool (!(operand vs 0).strictEquals (operand vs 1))
  | _ => .null

/-- Apply an operator to operands taken as numbers. -/
def applyToNumbers (op : Operator) (xs : List Number) : Except Overflow Value :=
  match op with
  | add => return .num (← xs.foldlM Number.add (.int 0))
  | subtract => return .num (← (Number.operand xs 0).sub (Number.operand xs 1))
  | multiply => return .num (← xs.foldlM Number.mul (.int 1))
  | divide => return .num (← (Number.operand xs 0).div (Number.operand xs 1))
  | less => return .bool (← Number.chain Number.less xs)
  | greater => return .bool (← Number.chain (fun x y => y.less x) xs)
  | minimum =>
    return .num (← Number.extremum Number.less (.double (.infinity false)) xs)
  | maximum =>
    return .num (← Number.extremum (fun x y => y.less x) (.double (.infinity true)) xs)
  | orElse =>
    let vs := xs.map Value.num
    return if (operand vs 0).isTruthy then operand vs 0 else operand vs 1
  | _ => return .null

/-- Apply an operator to evaluated operands. -/
def applyTo (op : Operator) (vs : List Value) : Except Overflow Value :=
  if op.keepsOperands then return op.applyToValues vs
  else op.applyToNumbers (vs.map Value.toNumber)

end Operator

end RuleTree
