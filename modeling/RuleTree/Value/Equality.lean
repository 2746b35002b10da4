import RuleTree.Value.Basic
/-!
# Strict equality

Values of different types are never equal, except that integers and doubles
compare as numbers. Containers are equal only to themselves.
-/

namespace RuleTree.Value

/-- Whether two values are the same scalar or the same container. -/
def strictEquals : Value → Value → Bool
  | null, null => true
  | bool a, bool b => decide (a = b)
  | num a, num b => a.equal b
  | str a, str b => decide (a = b)
  | list i _, list j _ => decide (i = j)
  | map i _, map j _ => decide (i = j)
  | _, _ => false

end RuleTree.Value
