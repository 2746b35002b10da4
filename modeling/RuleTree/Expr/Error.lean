import RuleTree.Number.Basic
import RuleTree.Value.Basic
/-!
# Evaluation errors

The ways in which an expression fails to have a value. The first three are faults
of the expression; the others come from numbers, paths and facts that an
operation cannot use.
-/

namespace RuleTree

/-- Why an expression has no value. -/
inductive EvalError where
  /-- The first key of a map, if it has one, is no operator. -/
  | unknownOperator (key : Option String)
  /-- A fact is asked for without a path. -/
  | missingPath
  /-- Expressions nest deeper than the limit. -/
  | tooDeep (limit : Int)
  /-- An integer is too large for a double. -/
  | overflow
  /-- A text of digits has no value as a position in a list, or an integer has too many digits
  to be written in a path. -/
  | malformedIndex
  /-- A loop binds its item in facts that are not a map. -/
  | factsNotMap
  deriving DecidableEq

namespace EvalError

/-- Whether the expression itself is at fault. -/
def isFault : EvalError → Bool
  | unknownOperator _ | missingPath | tooDeep _ => true
  | _ => false

/-- The wording of a fault. -/
def message? : EvalError → Option String
  | unknownOperator key => some ("알 수 없는 연산자: " ++ key.getD "None")
  | missingPath => some "var 연산자에 피연산자가 없습니다"
  | tooDeep limit => some ("표현식 중첩 깊이가 한도(" ++ toString limit ++ ")를 초과했습니다")
  | _ => none

/-- Report an overflow as an evaluation error. -/
def ofOverflow {α : Type} (r : Except Overflow α) : Except EvalError α :=
  r.mapError fun _ => overflow

/-- Report a malformed index as an evaluation error. -/
def ofIndex {α : Type} (r : Except MalformedIndex α) : Except EvalError α :=
  r.mapError fun _ => malformedIndex

end EvalError

end RuleTree
