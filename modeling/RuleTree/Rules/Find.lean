import RuleTree.Path.Basic
import RuleTree.Expr.Basic
/-!
# Finding a rule

A path is followed through the rules until a terminal rule is reached, whatever
is left of the path. Segments that the current level does not have are passed
over.
-/

namespace RuleTree.Rules

/-- The rule at a path, null if the descent ends at none. -/
def find : Path → Value → Except MalformedIndex Value
  | [], rules => .ok (if rules.isTerminal then rules else .null)
  | segment :: rest, rules =>
    if rules.isTerminal then .ok rules
    else match rules with
    | .map _ [] => .ok .null
    | _ => do
      match ← rules.child? segment with
      | some .null => return .null
      | some inner => find rest inner
      | none => find rest rules

end RuleTree.Rules
