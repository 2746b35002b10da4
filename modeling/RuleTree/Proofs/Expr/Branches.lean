import RuleTree.Proofs.Expr.Applied
import RuleTree.Proofs.Expr.Depth
import RuleTree.Proofs.Expr.Noninterference
/-!
# Chains of conditions

Conditions with their results can stand in one branch after each other, or each in the default
of the one before. The two come to the same result by the same steps (`Expr.evalBranch_flat`), only
that the nested form goes one level deeper with every condition; so unless it is cut off there, the
flat form has the same outcome (`evaluate_flatBranch`).
-/

namespace RuleTree

namespace Value

/-- Conditions with their results, and a default if there is one, in one row. -/
def flatOperands : List (Value × Value) → Option Value → List Value
  | [], default => default.toList
  | (condition, result) :: rest, default => condition :: result :: flatOperands rest default

/-- A condition with its result, and the others as a branch of their own in place of a default. -/
def nestedOperands : Value × Value → List (Value × Value) → Option Value → List Value
  | (condition, result), [], default => condition :: result :: default.toList
  | (condition, result), next :: rest, default =>
    [condition, result, applied .branch (nestedOperands next rest default)]

end Value

namespace Expr

open Eval

variable {limit : Int} {facts : Value}

/-- The nested form does what the flat form does, unless it is cut off. -/
theorem evalBranch_flat (default : Option Value) :
    ∀ (rest : List (Value × Value)) (first : Value × Value) {depth depth' : Nat}, depth' ≤ depth →
      SameUnlessTooDeep
        (evalBranch limit ((Value.nestedOperands first rest default).map ofValue) facts depth)
        (evalBranch limit ((Value.flatOperands (first :: rest) default).map ofValue) facts depth')
  | [], (condition, result), depth, depth', hdepth => by
    have hoperands : Unhindered limit limit depth depth'
        ((Value.flatOperands [(condition, result)] default).map ofValue) :=
      fun e _ facts => sameUnlessTooDeep_of_room e (by omega) facts
    exact hoperands.evalBranch facts
  | next :: rest, (condition, result), depth, depth', hdepth => by
    have hroom : limit - depth ≤ limit - depth' := by omega
    have hrest := evalBranch_flat default rest next (Nat.le_succ_of_le hdepth)
    rw [Value.nestedOperands, Value.flatOperands]
    simp only [List.map_cons, List.map_nil, ofValue_applied]
    rw [evalBranch, evalBranch]
    refine (sameUnlessTooDeep_of_room _ hroom facts).bind fun v => ?_
    -- neither the nested branch nor the rest of the row is missing
    cases v.isTruthy with
    | true => exact sameUnlessTooDeep_of_room _ hroom facts
    | false => exact hrest.enter_bind limit depth

end Expr

/-- A chain of conditions in one branch has the outcome of the nested branches, unless those are cut
off. -/
theorem evaluate_flatBranch (first : Value × Value) (rest : List (Value × Value))
    (default : Option Value) (facts : Value) (limit : Int)
    (h : ∀ l, evaluate (.applied .branch (Value.nestedOperands first rest default)) facts limit ≠
      .error (.tooDeep l)) :
    evaluate (.applied .branch (Value.flatOperands (first :: rest) default)) facts limit =
      evaluate (.applied .branch (Value.nestedOperands first rest default)) facts limit := by
  refine evaluate_eq_of_run h ?_
  rw [Expr.ofValue_applied, Expr.ofValue_applied, Expr.eval, Expr.eval]
  exact (Eval.SameUnlessTooDeep.refl _).bind
    (fun _ => Expr.evalBranch_flat default rest first (Nat.le_refl _)) 1

/-- Facts of a guest, who has no membership. -/
def guestFacts : Value :=
  .map (.given 0) [("gold", .bool false), ("silver", .bool false), ("bronze", .null)]

/-- No condition holds and there is no default, so both forms come to the last result. -/
theorem evaluate_flatBranch_of_guestFacts :
    evaluate (.applied .branch [askFor "gold", .int 30, .applied .branch
      [askFor "silver", .int 20, .applied .branch [askFor "bronze", .int 10]]]) guestFacts 3 =
      .ok (.int 10) ∧
    evaluate (.applied .branch [askFor "gold", .int 30, askFor "silver", .int 20,
      askFor "bronze", .int 10]) guestFacts 3 = .ok (.int 10) := by
  have hnested : evaluate (.applied .branch [askFor "gold", .int 30, .applied .branch
      [askFor "silver", .int 20, .applied .branch [askFor "bronze", .int 10]]]) guestFacts 3 =
      .ok (.int 10) := rfl
  have hflat := evaluate_flatBranch (askFor "gold", .int 30)
    [(askFor "silver", .int 20), (askFor "bronze", .int 10)] none guestFacts 3
    fun l h => nomatch hnested.symm.trans h
  exact ⟨hnested, hflat.trans hnested⟩

end RuleTree
