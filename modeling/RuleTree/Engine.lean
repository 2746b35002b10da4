import RuleTree.Rules.Find
import RuleTree.Graph.Propagation
import RuleTree.Settings
import RuleTree.Log
/-!
# Engines

An engine holds a rule tree with its graph, made once, and a snapshot of facts
that runs use if they are given none. A run finds the rule at a path and evaluates
it; a drill runs a path and all that it leads to on the same facts. What a run
reports beside its result is kept in a log, also if the run fails.
-/

namespace RuleTree

/-! ## Errors -/

/-- Why an engine cannot answer. -/
inductive EngineError where
  | evaluation (e : EvalError)
  | propagation (e : PropagationError)
  /-- A path is neither a text nor a sequence of segments. -/
  | notPath
  /-- A text of digits has no value as a position in a list, or a segment cannot be written. -/
  | malformedIndex
  /-- A direction has another name than the three. -/
  | unknownDirection
  /-- An entry of a batch is an empty list or text. -/
  | emptyEntry
  /-- An entry of a batch is a map. -/
  | keyedEntry
  /-- An entry of a batch is no sequence. -/
  | scalarEntry
  deriving DecidableEq

/-- The wording of an error that has one. -/
def EngineError.message? : EngineError → Option String
  | evaluation e => e.message?
  | propagation e => e.message?
  | _ => none

/-- The direction with a name. -/
def Direction.named (name : String) : Except EngineError Direction :=
  match Direction.ofName? name with
  | some d => .ok d
  | none => .error .unknownDirection

/-! ## The engine -/

/-- A rule tree ready to run. -/
structure Engine where
  rules : Value
  settings : Settings
  graph : Graph
  /-- The snapshot of facts, null if there is none. -/
  facts : Value

namespace Engine

/-- The engine of a rule tree, without facts. -/
def ofRules (rules : Value) (settings : Settings) : Except EvalError Engine := do
  return { rules, settings, graph := ← Graph.ofRules rules, facts := .null }

/-- Replace the snapshot. -/
def useFacts (e : Engine) (facts : Value) : Engine := { e with facts }

/-- The written addresses of all expressions. -/
def rulePaths (e : Engine) : List String := Rules.paths e.rules

/-- The segments that a value gives. -/
def segments (path : Value) : Except EngineError Path :=
  (Path.ofValue path).mapError fun
    | .scalar => .notPath
    | .unwritable => .malformedIndex

/-- Whether a value holds nothing: zero, false, null, or an empty text, list or map. -/
def holdsNothing : Value → Bool
  | .list _ items => items.isEmpty
  | .map _ entries => entries.isEmpty
  | .num n => n.isZero
  | v => !v.isTruthy

/-- The direction that a value names, that of the settings if the value holds nothing. -/
def directionOf (e : Engine) (v : Value) : Except EngineError Direction :=
  if holdsNothing v then .ok e.settings.direction
  else match v with
  | .str name => Direction.named name
  | _ => .error .unknownDirection

/-- The rule at a path. -/
def rule (e : Engine) (path : Value) : Except EngineError Value := do
  (Rules.find (← segments path) e.rules).mapError fun _ => .malformedIndex

/-- The edges at a path. -/
def dependencies (e : Engine) (path : Value) (direction : Direction) :
    Except EngineError (List Value) := do
  (e.graph.edges (← segments path) direction).mapError fun _ => .malformedIndex

/-- What a path leads to. -/
def propagate (e : Engine) (path : Value) (direction : Direction) :
    Except EngineError (List Value) :=
  (e.graph.propagate direction path).mapError .propagation

/-- A path and what it leads to. -/
def drillPaths (e : Engine) (path : Value) (direction : Direction) :
    Except EngineError (List Value) := do
  return path :: (← e.propagate path direction)

/-- Run the rule at a path. Facts that are null are not given; without a snapshot either
the run goes on with no facts and says so. -/
def run (e : Engine) (path facts : Value) : Logged EngineError Value := do
  let rule ← Logged.silent (e.rule path)
  let facts := if facts.isNull then e.facts else facts
  if facts.isNull then
    Logged.report .warning
      ("사실관계가 없습니다. use_facts를 호출하거나 facts 인자를 전달하세요 (path=" ++
        path.written ++ ")") none
  Logged.silent ((evaluate rule facts e.settings.depthLimit).mapError .evaluation)

/-! ## Batches -/

/-- The path and the facts of an entry of a batch, the facts null if they are missing. -/
def entryParts : Value → Except EngineError (Value × Value)
  | .list _ [] => .error .emptyEntry
  | .list _ [path] => .ok (path, .null)
  | .list _ (path :: facts :: _) => .ok (path, facts)
  | .str s =>
    match s.toList with
    | [] => .error .emptyEntry
    | [c] => .ok (.str c.toString, .null)
    | c :: d :: _ => .ok (.str c.toString, .str d.toString)
  | .map .. => .error .keyedEntry
  | _ => .error .scalarEntry

/-- The facts for an entry of a batch, an empty map if they hold nothing. -/
def entryFacts (e : Engine) (facts : Value) : Value :=
  let facts := if facts.isNull then e.facts else facts
  if holdsNothing facts then .ofEntries [] else facts

/-- Run an entry of a batch. -/
def runEntry (e : Engine) (entry : Value) : Logged EngineError Value := do
  let (path, facts) ← Logged.silent (entryParts entry)
  e.run path (e.entryFacts facts)

/-- Run the entries of a batch in order; anything but a list is reported and gives no
results. -/
def runSeveral (e : Engine) (entries : Value) : Logged EngineError (List Value) :=
  match entries with
  | .list _ items => items.mapM e.runEntry
  | v => do
    Logged.report .error ("run_several는 리스트만 인자로 받습니다: " ++ v.typeName) none
    return []

/-- Run a path and all that it leads to. -/
def drill (e : Engine) (path facts : Value) (direction : Direction) :
    Logged EngineError (List Value) := do
  let facts := if facts.isNull then e.facts else facts
  let paths ← Logged.silent (e.drillPaths path direction)
  paths.mapM fun p => e.run p facts

end Engine

end RuleTree
