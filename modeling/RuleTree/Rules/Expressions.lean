import RuleTree.Text.Digit
import RuleTree.Path.Basic
import RuleTree.Expr.Basic
/-!
# The expressions of a rule tree

Groups of rules are maps and lists; whatever else is no expression is a constant.
`Rules.expressions` lists the expressions that are not inside another one, depth
first, each with its address. An address is made of keys and written positions, so
a list is too long if its last position cannot be written (`Rules.isWritable`).
-/

namespace RuleTree.Rules

mutual

/-- The expressions of a rule tree with their addresses. -/
def expressions : Value → List (Path × Value)
  | .map id entries =>
    if (Value.map id entries).isExpression then [([], .map id entries)]
    else expressionsOfEntries entries
  | .list _ items => expressionsOfItems 0 items
  | _ => []
  termination_by structural v => v

/-- The expressions under the keys of a group. -/
def expressionsOfEntries : List (String × Value) → List (Path × Value)
  | [] => []
  | (key, v) :: rest =>
    ((expressions v).map fun (path, e) => (key :: path, e)) ++ expressionsOfEntries rest
  termination_by structural entries => entries

/-- The expressions in a list, whose first item has the given position. -/
def expressionsOfItems (position : Nat) : List Value → List (Path × Value)
  | [] => []
  | v :: rest =>
    ((expressions v).map fun (path, e) => (toString position :: path, e)) ++
      expressionsOfItems (position + 1) rest
  termination_by structural items => items

end

mutual

/-- Whether the positions in all lists of a rule tree can be written, apart from those inside
of expressions. -/
def isWritable : Value → Bool
  | .map id entries => (Value.map id entries).isExpression || isWritableEntries entries
  | .list _ items => Text.isWritable (items.length - 1) && isWritableItems items
  | _ => true
  termination_by structural v => v

/-- Whether the positions in the lists under the keys of a group can be written. -/
def isWritableEntries : List (String × Value) → Bool
  | [] => true
  | (_, v) :: rest => isWritable v && isWritableEntries rest
  termination_by structural entries => entries

/-- Whether the positions in the lists among items can be written. -/
def isWritableItems : List Value → Bool
  | [] => true
  | v :: rest => isWritable v && isWritableItems rest
  termination_by structural items => items

end

/-- The written form of an address; empty segments in front leave no trace. -/
def addressText (path : Path) : String :=
  Path.text (path.dropWhile fun segment => segment = "")

/-- The written addresses of all expressions. -/
def paths (rules : Value) : List String :=
  (expressions rules).map fun (path, _) => addressText path

end RuleTree.Rules
