import RuleTree.Expr.Eval
/-!
# Dependencies

The dependencies of an expression are the paths of the facts that its text asks
for. `Expr.scan` walks the expression from left to right and stops at the first
fact without a path; `Expr.dependencies` lists the paths it meets, each once.
-/

namespace RuleTree

/-- The paths met on a walk, and the error that ended it early. -/
structure Scan where
  paths : List String
  error : Option EvalError
  deriving DecidableEq

namespace Scan

/-- A walk that meets nothing. -/
def empty : Scan := ⟨[], none⟩

/-- Walk on, unless the first walk ended early. -/
def append (first second : Scan) : Scan :=
  match first.error with
  | some _ => first
  | none => ⟨first.paths ++ second.paths, second.error⟩

instance : Append Scan := ⟨append⟩

end Scan

namespace Expr

mutual

/-- The paths that an expression asks for, in order and with repetitions. A path that
is itself computed is scanned in place of the fact. -/
def scan : Expr → Scan
  | literal _ => .empty
  | array items => scanAll items
  | apply .fact operands => scanFact operands
  | apply _ operands => scanAll operands
  termination_by structural e => e

/-- The paths that expressions ask for. -/
def scanAll : List Expr → Scan
  | [] => .empty
  | e :: es => scan e ++ scanAll es
  termination_by structural es => es

/-- The path that a fact's first operand gives, or the paths that it asks for. -/
def scanFact : List Expr → Scan
  | [] => ⟨[], some .missingPath⟩
  | literal (.str path) :: _ => ⟨[path], none⟩
  | e :: _ => scan e
  termination_by structural es => es

end

/-- The paths that are neither the item of a loop nor met before. -/
def firsts (met : List String) : List String → List String
  | [] => []
  | p :: ps =>
    if p = loopKey ∨ p ∈ met then firsts met ps else p :: firsts (p :: met) ps

/-- The paths that an expression asks for, in the order of their first occurrence. The
item of a loop is no path of the facts, but what lies below it is listed. -/
def dependencies (e : Expr) : Except EvalError (List String) :=
  match e.scan with
  | ⟨_, some error⟩ => .error error
  | ⟨paths, none⟩ => .ok (firsts [] paths)

end Expr

end RuleTree
