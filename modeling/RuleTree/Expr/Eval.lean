import RuleTree.Expr.Operations
import RuleTree.Value.Written
import RuleTree.Path.Basic
/-!
# Evaluation

`Expr.eval` gives the value of an expression for given facts. Every step into an
expression costs one level of depth and fails below the limit. A list is
evaluated to a new list, and a loop binds its item in a new map of facts, so the
evaluation numbers the containers that it makes. Operands are evaluated from left
to right and only as far as the result needs them.
-/

namespace RuleTree

/-- A computation that can fail and that numbers the containers it makes. -/
abbrev Eval := StateT Nat (Except EvalError)

/-- The key that a loop binds its item to. -/
def loopKey : String := "$"

/-- The depth that is allowed if nothing else is said. -/
def defaultDepthLimit : Int := 256

namespace Eval

/-- The identity of a new container. -/
def newIdent : Eval Ident := do
  let n ← get
  set (n + 1)
  return .made n

/-- Fail below the limit. -/
def enter (limit : Int) (depth : Nat) : Eval Unit :=
  if limit < depth then throw (.tooDeep limit) else pure ()

/-- The facts with the item of a loop. -/
def bindItem (facts item : Value) : Eval Value :=
  match facts with
  | .map _ entries => return .map (← newIdent) (Entries.put loopKey item entries)
  | _ => throw .factsNotMap

/-- Whether some item passes, tried in order. -/
def someItem (facts : Value) (test : Value → Eval Value) : List Value → Eval Bool
  | [] => return false
  | item :: rest => do
    if (← test (← bindItem facts item)).isTruthy then return true
    someItem facts test rest

/-- Whether every item passes, tried in order. -/
def everyItem (facts : Value) (test : Value → Eval Value) : List Value → Eval Bool
  | [] => return true
  | item :: rest => do
    if (← test (← bindItem facts item)).isTruthy then everyItem facts test rest
    else return false

end Eval

namespace Value

/-- The fact at a path. Empty segments are passed over, and the first value on the way
that does not count as true is the result. -/
def factAt : Path → Value → Except MalformedIndex Value
  | [], v => .ok v
  | segment :: rest, v =>
    if segment = "" then factAt rest v
    else do
      let found := (← v.child? segment).getD .null
      if found.isTruthy then factAt rest found else return found

/-- The fact at a written path. -/
def factAtText (text : String) (facts : Value) : Eval Value :=
  EvalError.ofIndex (factAt (Path.ofText text) facts)

/-- The fact at the path that a value is written as. -/
def factAtValue (facts path : Value) : Eval Value :=
  if path.isWritable then facts.factAtText path.written else throw .malformedIndex

end Value

namespace Expr

mutual

/-- The value of an expression at a depth. -/
def eval (limit : Int) : Expr → Value → Nat → Eval Value
  | literal v, _, depth => do
    Eval.enter limit depth
    return v
  | array items, facts, depth => do
    Eval.enter limit depth
    let values ← evalAll limit items facts (depth + 1)
    return .list (← Eval.newIdent) values
  | apply op operands, facts, depth => do
    Eval.enter limit depth
    match op with
    | .branch => evalBranch limit operands facts (depth + 1)
    | .allOf => return .bool (← evalAllOf limit operands facts (depth + 1))
    | .anyOf => return .bool (← evalAnyOf limit operands facts (depth + 1))
    | .fact => evalFact limit operands facts (depth + 1)
    | .someItem =>
      match ← evalFirst limit operands facts (depth + 1) with
      | .list _ items =>
        return .bool (← Eval.someItem facts
          (fun inner => evalSecond limit operands inner (depth + 1)) items)
      | v => return .bool v.isTruthy
    | .everyItem =>
      match ← evalFirst limit operands facts (depth + 1) with
      | .list _ items =>
        return .bool (← Eval.everyItem facts
          (fun inner => evalSecond limit operands inner (depth + 1)) items)
      | v => return .bool v.isTruthy
    | op =>
      let values ← evalAll limit operands facts (depth + 1)
      EvalError.ofOverflow (op.applyTo values)
  termination_by structural e => e

/-- The values of all expressions. -/
def evalAll (limit : Int) : List Expr → Value → Nat → Eval (List Value)
  | [], _, _ => return []
  | e :: es, facts, depth => do
    let v ← eval limit e facts depth
    return v :: (← evalAll limit es facts depth)
  termination_by structural es => es

/-- The value of the first expression, null if there is none. -/
def evalFirst (limit : Int) : List Expr → Value → Nat → Eval Value
  | [], _, depth => do
    Eval.enter limit depth
    return .null
  | e :: _, facts, depth => eval limit e facts depth
  termination_by structural es => es

/-- The value of the second expression, null if there is none. -/
def evalSecond (limit : Int) : List Expr → Value → Nat → Eval Value
  | _ :: e :: _, facts, depth => eval limit e facts depth
  | _, _, depth => do
    Eval.enter limit depth
    return .null
  termination_by structural es => es

/-- The result of the first condition that counts as true. The last operand is the
result otherwise: the default, or the last result if there is no default. -/
def evalBranch (limit : Int) : List Expr → Value → Nat → Eval Value
  | [], _, _ => return .null
  | [default], facts, depth => eval limit default facts depth
  | condition :: result :: rest, facts, depth => do
    if (← eval limit condition facts depth).isTruthy || rest.isEmpty then
      eval limit result facts depth
    else
      evalBranch limit rest facts depth
  termination_by structural es => es

/-- Whether every expression counts as true, tried in order. -/
def evalAllOf (limit : Int) : List Expr → Value → Nat → Eval Bool
  | [], _, _ => return true
  | e :: es, facts, depth => do
    if (← eval limit e facts depth).isTruthy then evalAllOf limit es facts depth
    else return false
  termination_by structural es => es

/-- Whether some expression counts as true, tried in order. -/
def evalAnyOf (limit : Int) : List Expr → Value → Nat → Eval Bool
  | [], _, _ => return false
  | e :: es, facts, depth => do
    if (← eval limit e facts depth).isTruthy then return true
    else evalAnyOf limit es facts depth
  termination_by structural es => es

/-- The fact at the path that the first expression gives; a text is used as it is. -/
def evalFact (limit : Int) : List Expr → Value → Nat → Eval Value
  | [], _, _ => throw .missingPath
  | literal (.str path) :: _, facts, _ => facts.factAtText path
  | e :: _, facts, depth => do
    let path ← eval limit e facts depth
    facts.factAtValue path
  termination_by structural es => es

end

end Expr

/-- The value of a value read as an expression. Without facts there is an empty map of
them. -/
def evaluate (logic : Value) (facts : Value) (limit : Int) : Except EvalError Value :=
  let facts := if facts.isNull then .ofEntries [] else facts
  ((Expr.ofValue logic).eval limit facts 0).run' 1

end RuleTree
