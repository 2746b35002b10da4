import RuleTree.Value.Basic
import RuleTree.Expr.Operator
import RuleTree.Expr.Error
/-!
# Expressions

A map with an operator's symbol as its only key is an expression; its operands
are the items of the list under that key, or the one value that stands there. A
list is evaluated item by item. Every other value stands for itself.
-/

namespace RuleTree

/-- A value read as something to evaluate. -/
inductive Expr where
  | literal (v : Value)
  | array (items : List Expr)
  | apply (op : Operator) (operands : List Expr)
  deriving Inhabited

namespace Value

/-- The operator of a map with one entry. -/
def operator? : Value → Option Operator
  | map _ [(key, _)] => Operator.ofSymbol? key
  | _ => none

/-- Whether it is an expression. -/
def isExpression (v : Value) : Bool := v.operator?.isSome

/-- The operator that the first key names. -/
def operator (entries : List (String × Value)) : Except EvalError Operator :=
  match entries with
  | [] => .error (.unknownOperator none)
  | (key, _) :: _ =>
    match Operator.ofSymbol? key with
    | some op => .ok op
    | none => .error (.unknownOperator (some key))

/-- The operands under the first key, if it names an operator. -/
def operands (entries : List (String × Value)) : Except EvalError (List Value) := do
  let _ ← operator entries
  match entries with
  | (_, list _ items) :: _ => return items
  | (_, operand) :: _ => return [operand]
  | [] => return []

/-- Whether a descent through the rules ends here: at a scalar, a list of scalars or an
expression. -/
def isTerminal : Value → Bool
  | map id entries => (map id entries).isExpression
  | list _ items => items.all isScalar
  | _ => true

end Value

namespace Expr

mutual

/-- Read a value as an expression. -/
def ofValue : Value → Expr
  | .list _ items => array (ofItems items)
  | .map id [(key, .list inner items)] =>
    match Operator.ofSymbol? key with
    | some op => apply op (ofItems items)
    | none => literal (.map id [(key, .list inner items)])
  | .map id [(key, operand)] =>
    match Operator.ofSymbol? key with
    | some op => apply op [ofValue operand]
    | none => literal (.map id [(key, operand)])
  | v => literal v
  termination_by structural v => v

/-- Read the items of a list as expressions. -/
def ofItems : List Value → List Expr
  | [] => []
  | v :: vs => ofValue v :: ofItems vs
  termination_by structural vs => vs

end

end Expr

end RuleTree
