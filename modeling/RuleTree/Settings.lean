import RuleTree.Text.Integer
import RuleTree.Value.Basic
import RuleTree.Expr.Eval
import RuleTree.Graph.Basic
/-!
# Settings

An engine has a limit on the depth of expressions, which is at least one, and a
direction for walks that name none. Settings come from named fields, whose values
may be numbers in several forms, or from environment variables.
-/

namespace RuleTree

/-- How an engine evaluates and walks. -/
structure Settings where
  depthLimit : Int
  direction : Direction
  deriving DecidableEq, Inhabited

/-- Why settings are refused. -/
inductive SettingsError where
  /-- The text for the depth limit is no integer. -/
  | notInteger
  /-- A value is not allowed. -/
  | invalid
  deriving DecidableEq

namespace Settings

/-- The settings if nothing is said. -/
def standard : Settings := { depthLimit := defaultDepthLimit, direction := .undirected }

/-- The depth limit that a value stands for: a positive integer, true, a double without
a fraction below `2 ^ 63` or the text of a positive integer. -/
def depthLimit? : Value → Option Int
  | .num (.int n) => if 1 ≤ n then some n else none
  | .bool true => some 1
  | .num (.double (.finite false steps)) =>
    let n := steps / Double.stepsPerOne
    if steps % Double.stepsPerOne = 0 ∧ 1 ≤ n ∧ n < Nat.pow 2 63 then some n else none
  | .str s => (Text.readPositive? s).map fun n => (n : Int)
  | _ => none

/-- The direction that a value names. -/
def direction? : Value → Option Direction
  | .str name => Direction.ofName? name
  | _ => none

/-- Take a field that may be missing. -/
def field {α : Type} (standard : α) (read : Value → Option α) (value : Option Value) :
    Except SettingsError α :=
  match value with
  | none => .ok standard
  | some v => match read v with
    | some a => .ok a
    | none => .error .invalid

/-- The settings in named fields; other fields are passed over. -/
def ofFields (fields : List (String × Value)) : Except SettingsError Settings := do
  let limit ← field standard.depthLimit depthLimit? (Entries.get? "max_depth" fields)
  let direction ← field standard.direction direction?
    (Entries.get? "default_direction" fields)
  return ⟨limit, direction⟩

/-- The variable that holds the depth limit. -/
def depthVariable : String := "FORMLOGIC_MAX_DEPTH"

/-- The variable that holds the direction. -/
def directionVariable : String := "FORMLOGIC_DEFAULT_DIRECTION"

/-- The settings in environment variables. -/
def ofEnvironment (environment : List (String × String)) : Except SettingsError Settings := do
  let limit ← match Entries.get? depthVariable environment with
    | none => pure standard.depthLimit
    | some text => match Text.readInteger? text with
      | some n => pure n
      | none => throw .notInteger
  ofFields [
    ("max_depth", .int limit),
    ("default_direction",
      .str ((Entries.get? directionVariable environment).getD standard.direction.name))]

end Settings

end RuleTree
