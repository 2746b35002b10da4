import RuleTree.Path.Basic
import RuleTree.Value.Written
/-!
# Values as paths

A path is handed in as a text or as a sequence of segments. The segments of a list
are the written forms of its items, if they can be written, those of a map its keys.
-/

namespace RuleTree.Path

/-- Why a value gives no path. -/
inductive NoPath where
  /-- A number, a boolean or null. -/
  | scalar
  /-- An item of a list cannot be written. -/
  | unwritable
  deriving DecidableEq

/-- The path that a value gives. -/
def ofValue : Value → Except NoPath Path
  | .str s => .ok (ofText s)
  | .list _ items =>
    if items.all Value.isWritable then .ok (items.map Value.written) else .error .unwritable
  | .map _ entries => .ok (Entries.keys entries)
  | _ => .error .scalar

end RuleTree.Path
