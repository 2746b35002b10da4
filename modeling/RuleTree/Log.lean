import RuleTree.Expr.Error
import RuleTree.Rules.File
/-!
# Logs

What a computation reports beside its result. Reports are kept in order, also if
the computation fails.
-/

namespace RuleTree

/-- How important a report is. -/
inductive LogLevel where
  | info
  | warning
  | error
  deriving DecidableEq

/-- The written form of a level. -/
def LogLevel.name : LogLevel → String
  | info => "INFO"
  | warning => "WARNING"
  | error => "ERROR"

/-- Why the rules in a file are not usable. -/
inductive LoadError where
  | file (e : Rules.FileError)
  /-- The graph of the rules cannot be made. -/
  | rules (e : EvalError)
  deriving DecidableEq

/-- A report; the text of one about a failure ends where the failure is to be told. -/
structure LogRecord where
  level : LogLevel
  text : String
  failure : Option LoadError
  deriving DecidableEq

/-- A computation that can fail and that keeps a log either way. -/
abbrev Logged (ε : Type) := ExceptT ε (StateM (List LogRecord))

namespace Logged

variable {ε α : Type}

/-- Add a report to the log. -/
def report (level : LogLevel) (text : String) (failure : Option LoadError) : Logged ε Unit :=
  modify (· ++ [⟨level, text, failure⟩])

/-- A computation that reports nothing. -/
def silent (x : Except ε α) : Logged ε α := ExceptT.mk (pure x)

/-- The outcome of a computation, and its log. -/
def outcome (x : Logged ε α) : Except ε α × List LogRecord := x.run.run []

end Logged

end RuleTree
