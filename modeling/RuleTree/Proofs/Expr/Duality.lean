import RuleTree.Proofs.Expr.Applied
import RuleTree.Proofs.Expr.Depth
import RuleTree.Proofs.Expr.Noninterference
/-!
# De Morgan's laws

A connective tries its operands, and a loop its items, until one has the truth that settles it
(`Eval.untilSettled`). With opposites the same one settles the other connective or loop the other
way (`Eval.untilSettled_opposite`), and whatever fails on the way fails in both. The depth is the
same, but for the operand that a loop goes over : the opposite of a loop evaluates it one level
deeper, and can be cut off there. `evaluate_deMorgan` states the laws for whole expressions.
-/

namespace RuleTree

namespace Operator

/-- The connective that an operand with this truth settles. -/
def connective : Bool → Operator
  | true => anyOf
  | false => allOf

/-- The loop that an item with this truth settles. -/
def quantifier : Bool → Operator
  | true => someItem
  | false => everyItem

end Operator

/-! ## Opposites -/

namespace Eval

/-- The opposite of the truth of a result. -/
def opposite (x : Eval Value) : Eval Value := do return .bool (!(← x).isTruthy)

theorem opposite_pure (v : Value) : opposite (pure v) = pure (.bool !v.isTruthy) := by
  rw [opposite, pure_bind]

theorem opposite_bind {α : Type} (x : Eval α) (f : α → Eval Value) :
    opposite (x >>= f) = x >>= fun a => opposite (f a) := by
  rw [opposite, bind_assoc]
  rfl

/-- Run computations in order until one has the truth that settles them all. -/
def untilSettled (settling : Bool) : List (Eval Value) → Eval Bool
  | [] => return !settling
  | x :: rest => do
    if (← x).isTruthy = settling then return settling else untilSettled settling rest

/-- The computation that settles them all settles their opposites the other way. -/
theorem untilSettled_opposite (settling : Bool) : ∀ xs : List (Eval Value),
    untilSettled (!settling) (xs.map opposite) = (do return !(← untilSettled settling xs))
  | [] => by simp [untilSettled]
  | x :: rest => by
    rw [List.map_cons, untilSettled, untilSettled, untilSettled_opposite settling rest]
    simp only [opposite, bind_assoc, pure_bind]
    refine bind_congr fun v => ?_
    cases settling <;> cases v.isTruthy <;> simp [Value.isTruthy]

/-! ## Loops -/

/-- The test of each item, with the facts that it is bound in. -/
def itemTests (facts : Value) (test : Value → Eval Value) (items : List Value) :
    List (Eval Value) :=
  items.map fun item => bindItem facts item >>= test

variable {facts : Value} {test : Value → Eval Value}

/-- A test that holds settles the search for an item. -/
theorem untilSettled_true_itemTests : ∀ items,
    untilSettled true (itemTests facts test items) = someItem facts test items
  | [] => rfl
  | item :: rest => by
    rw [someItem, ← untilSettled_true_itemTests rest, itemTests, List.map_cons, untilSettled,
      bind_assoc]
    rfl

theorem untilSettled_false_itemTests : ∀ items,
    untilSettled false (itemTests facts test items) = everyItem facts test items
  | [] => rfl
  | item :: rest => by
    rw [everyItem, ← untilSettled_false_itemTests rest, itemTests, List.map_cons, untilSettled,
      bind_assoc]
    refine bind_congr fun inner => bind_congr fun v => ?_
    cases v.isTruthy <;> rfl

theorem itemTests_opposite (items : List Value) :
    itemTests facts (fun inner => opposite (test inner)) items =
      (itemTests facts test items).map opposite := by
  simp only [itemTests, List.map_map, Function.comp_def, opposite_bind]

/-- What a loop makes of the value that it goes over, which counts by its truth if it is no
list. -/
def overItems (settling : Bool) (facts : Value) (test : Value → Eval Value) : Value → Eval Value
  | .list _ items => do return .bool (← untilSettled settling (itemTests facts test items))
  | v => return .bool v.isTruthy

/-- Opposite tests over the items of a list, settled the other way, have the opposite outcome. -/
theorem overItems_opposite (settling : Bool) (id : Ident) (items : List Value) :
    overItems (!settling) facts (fun inner => opposite (test inner)) (.list id items) =
      opposite (overItems settling facts test (.list id items)) := by
  rw [overItems, overItems, itemTests_opposite, untilSettled_opposite, opposite_bind, bind_assoc]
  simp only [opposite_pure, pure_bind]
  rfl

end Eval

/-! ## Operators -/

namespace Expr

open Eval

variable {limit : Int} {facts : Value} {depth : Nat}

theorem untilSettled_true_eval : ∀ es,
    untilSettled true (es.map fun e => eval limit e facts depth) = evalAnyOf limit es facts depth
  | [] => rfl
  | e :: es => by
    rw [evalAnyOf, ← untilSettled_true_eval es, List.map_cons, untilSettled]

theorem untilSettled_false_eval : ∀ es,
    untilSettled false (es.map fun e => eval limit e facts depth) = evalAllOf limit es facts depth
  | [] => rfl
  | e :: es => by
    rw [evalAllOf, ← untilSettled_false_eval es, List.map_cons, untilSettled]
    refine bind_congr fun v => ?_
    cases v.isTruthy <;> rfl

/-- A connective enters one level and goes on until an operand settles it. -/
theorem eval_connective (settling : Bool) (es : List Expr) :
    eval limit (apply (.connective settling) es) facts depth = (do
      enter limit depth
      return .bool (← untilSettled settling
        (es.map fun e => eval limit e facts (depth + 1)))) := by
  cases settling with
  | false => rw [untilSettled_false_eval, Operator.connective, eval]
  | true => rw [untilSettled_true_eval, Operator.connective, eval]

/-- A quantifier enters one level and tests the items of its list until one settles it. -/
theorem eval_quantifier (settling : Bool) (items template : Expr) :
    eval limit (apply (.quantifier settling) [items, template]) facts depth = (do
      enter limit depth
      overItems settling facts (fun inner => eval limit template inner (depth + 1))
        (← eval limit items facts (depth + 1))) := by
  cases settling with
  | false =>
    rw [Operator.quantifier, eval]
    refine bind_congr fun _ => bind_congr fun v => ?_
    cases v with
    | list id vs => rw [overItems, untilSettled_false_itemTests]; rfl
    | _ => rfl
  | true =>
    rw [Operator.quantifier, eval]
    refine bind_congr fun _ => bind_congr fun v => ?_
    cases v with
    | list id vs => rw [overItems, untilSettled_true_itemTests]; rfl
    | _ => rfl

/-- A negation enters one level and turns the truth of its operand. -/
theorem eval_negate (e : Expr) : eval limit (apply .negate [e]) facts depth = (do
    enter limit depth
    opposite (eval limit e facts (depth + 1))) := by
  rw [eval_apply_of_isStrict rfl]
  refine bind_congr fun _ => ?_
  simp only [evalAll, opposite, bind_assoc, pure_bind]
  rfl

theorem enter_of_le (h : depth ≤ limit) : enter limit depth = pure () :=
  if_neg (by omega)

theorem enter_of_lt (h : limit < depth) : enter limit depth = throw (.tooDeep limit) :=
  if_pos h

theorem eval_negate_of_le (h : depth ≤ limit) (e : Expr) :
    eval limit (apply .negate [e]) facts depth = opposite (eval limit e facts (depth + 1)) := by
  rw [eval_negate, enter_of_le h, pure_bind]

/-- The opposite of a connective is the other one of the opposites. -/
theorem eval_negate_connective (settling : Bool) (es : List Expr) (h : (depth + 1 : Nat) ≤ limit) :
    eval limit (apply .negate [apply (.connective settling) es]) facts depth =
      eval limit (apply (.connective !settling) (es.map fun e => apply .negate [e])) facts
        depth := by
  have hopposites : ((es.map fun e => apply .negate [e]).map
      fun e => eval limit e facts (depth + 1)) =
      (es.map fun e => eval limit e facts (depth + 1 + 1)).map opposite := by
    simp only [List.map_map, Function.comp_def, eval_negate_of_le h]
  rw [eval_negate, eval_connective, eval_connective, hopposites, untilSettled_opposite,
    enter_of_le h]
  simp only [pure_bind, opposite_bind, opposite_pure, bind_assoc]
  rfl

/-- The opposite of a loop is the other loop with the opposite template, unless it is cut off or
goes over something else than a list. -/
theorem eval_negate_quantifier (settling : Bool) {items : Expr} (template : Expr) {n : Nat}
    (hlist : ∀ v m, eval limit items facts (depth + 2) n = .ok (v, m) → ∃ id vs, v = .list id vs) :
    (∃ l, eval limit (apply .negate [apply (.quantifier settling) [items, template]]) facts depth n
      = .error (.tooDeep l)) ∨
    eval limit (apply (.quantifier !settling) [items, apply .negate [template]]) facts depth n =
      eval limit (apply .negate [apply (.quantifier settling) [items, template]]) facts depth
        n := by
  rw [eval_negate, eval_quantifier, eval_quantifier]
  by_cases h : (depth + 1 : Nat) ≤ limit
  · have hitems : SameUnlessTooDeep (eval limit items facts (depth + 1 + 1))
        (eval limit items facts (depth + 1)) :=
      sameUnlessTooDeep_of_room items (by omega) facts
    have hdepth : (depth : Int) ≤ limit := by omega
    simp only [eval_negate_of_le h, enter_of_le h, enter_of_le hdepth, pure_bind, opposite_bind]
    refine hitems.bind_run fun v m hv => ?_
    obtain ⟨id, vs, rfl⟩ := hlist v m hv
    rw [overItems_opposite]
    exact Or.inr rfl
  · refine Or.inl ⟨limit, ?_⟩
    by_cases hd : limit < depth
    · rw [enter_of_lt hd]
      rfl
    · rw [enter_of_le (by omega), enter_of_lt (by omega)]
      rfl

end Expr

/-! ## Whole expressions -/

open RuleTree.Expr RuleTree.Eval

variable {facts : Value} {limit : Int}

/-- Two outcomes are the same truth or the same failure. -/
def SameTruth (x y : Except EvalError Value) : Prop :=
  ∃ r : Except EvalError Bool, x = r.map .bool ∧ y = r.map .bool

/-- An opposite is a truth, if it does not fail. -/
theorem exists_truth_of_negate (v facts : Value) (limit : Int) :
    ∃ r : Except EvalError Bool, evaluate (.applied .negate [v]) facts limit = r.map .bool := by
  rw [evaluate_eq, ofValue_applied, List.map_singleton, eval_negate, ← opposite_bind]
  set x := enter limit 0 >>= fun _ => eval limit (ofValue v) facts.orEmpty (0 + 1)
  have hrun : opposite x 1 = (x 1 >>= fun p => .ok (.bool !p.1.isTruthy, p.2)) := rfl
  rw [hrun]
  cases x 1 with
  | error err => exact ⟨.error err, rfl⟩
  | ok p => exact ⟨.ok !p.1.isTruthy, rfl⟩

theorem sameTruth_of_eq {v other : Value}
    (h : evaluate other facts limit = evaluate (.applied .negate [v]) facts limit) :
    SameTruth (evaluate (.applied .negate [v]) facts limit) (evaluate other facts limit) := by
  obtain ⟨r, hr⟩ := exists_truth_of_negate v facts limit
  exact ⟨r, hr, h.trans hr⟩

/-- The negation of one connective is the other one over negations. -/
theorem sameTruth_connective (settling : Bool) (operands : List Value) (h : 1 ≤ limit) :
    SameTruth (evaluate (.applied .negate [.applied (.connective settling) operands]) facts limit)
      (evaluate (.applied (.connective !settling) (operands.map fun v => .applied .negate [v]))
        facts limit) := by
  apply sameTruth_of_eq
  have hopposites : (operands.map fun v => Value.applied .negate [v]).map ofValue =
      (operands.map ofValue).map fun e => apply .negate [e] := by
    simp [ofValue_applied]
  rw [evaluate_eq, evaluate_eq, ofValue_applied, ofValue_applied, List.map_singleton,
    ofValue_applied, hopposites, eval_negate_connective settling _ (by omega)]

/-- The negation of one quantifier over a list is the other one over the negated test. -/
theorem sameTruth_quantifier (settling : Bool) {list template : Value}
    (hlist : ∃ limit' id items, evaluate list facts limit' = .ok (.list id items))
    (h : ∀ l, evaluate (.applied .negate [.applied (.quantifier settling) [list, template]]) facts
      limit ≠ .error (.tooDeep l)) :
    SameTruth
      (evaluate (.applied .negate [.applied (.quantifier settling) [list, template]]) facts limit)
      (evaluate (.applied (.quantifier !settling) [list, .applied .negate [template]]) facts
        limit) := by
  refine sameTruth_of_eq (evaluate_eq_of_run h ?_)
  obtain ⟨limit', id, items, hlist⟩ := hlist
  obtain ⟨m, hlist⟩ := exists_run_of_evaluate hlist
  have hvalue : ∀ v k, eval limit (ofValue list) facts.orEmpty 2 1 = .ok (v, k) →
      ∃ id vs, v = .list id vs := by
    intro v k hv
    have hsame : eval limit (ofValue list) facts.orEmpty 2 1 =
        eval limit' (ofValue list) facts.orEmpty 0 1 :=
      eval_eq_of_not_tooDeep (fun l => by rw [hv]; simp) (fun l => by rw [hlist]; simp)
    rw [hv, hlist] at hsame
    obtain ⟨rfl, -⟩ := Prod.mk.inj (Except.ok.inj hsame)
    exact ⟨id, items, rfl⟩
  simp only [ofValue_applied, List.map_cons, List.map_nil]
  exact eval_negate_quantifier settling (ofValue template) hvalue

/-- The opposite of a connective has the same outcome as the other connective of the opposites, and
the opposite of a loop over a list, unless it is cut off, as the other loop with the opposite
template. -/
theorem evaluate_deMorgan (facts : Value) (limit : Int) :
    (1 ≤ limit → ∀ operands : List Value,
      SameTruth (evaluate (.applied .negate [.applied .allOf operands]) facts limit)
        (evaluate (.applied .anyOf (operands.map fun v => .applied .negate [v])) facts limit) ∧
      SameTruth (evaluate (.applied .negate [.applied .anyOf operands]) facts limit)
        (evaluate (.applied .allOf (operands.map fun v => .applied .negate [v])) facts limit)) ∧
    ∀ list template : Value,
      (∃ limit' id items, evaluate list facts limit' = .ok (.list id items)) →
      ((∀ l, evaluate (.applied .negate [.applied .someItem [list, template]]) facts limit ≠
          .error (.tooDeep l)) →
        SameTruth (evaluate (.applied .negate [.applied .someItem [list, template]]) facts limit)
          (evaluate (.applied .everyItem [list, .applied .negate [template]]) facts limit)) ∧
      ((∀ l, evaluate (.applied .negate [.applied .everyItem [list, template]]) facts limit ≠
          .error (.tooDeep l)) →
        SameTruth (evaluate (.applied .negate [.applied .everyItem [list, template]]) facts limit)
          (evaluate (.applied .someItem [list, .applied .negate [template]]) facts limit)) := by
  constructor
  · intro h operands
    exact ⟨sameTruth_connective false operands h, sameTruth_connective true operands h⟩
  · intro list template hlist
    exact ⟨sameTruth_quantifier true hlist, sameTruth_quantifier false hlist⟩

/-- Facts with a list in which not every item counts as true. -/
def scoreFacts : Value :=
  .map (.given 0) [("ready", .bool true), ("scores", .list (.given 1) [.int 3, .int 0])]

/-- A fact without a path is the second operand. -/
theorem evaluate_deMorgan_of_scores :
    evaluate (.applied .negate [.applied .allOf [askFor "ready", .applied .fact []]]) scoreFacts 2 =
      .error .missingPath ∧
    SameTruth
      (evaluate (.applied .negate [.applied .allOf [askFor "ready", .applied .fact []]])
        scoreFacts 2)
      (evaluate (.applied .anyOf [.applied .negate [askFor "ready"],
        .applied .negate [.applied .fact []]]) scoreFacts 2) ∧
    evaluate (.applied .negate [.applied .everyItem [askFor "scores", askFor "$"]]) scoreFacts 2 =
      .ok (.bool true) ∧
    SameTruth
      (evaluate (.applied .negate [.applied .everyItem [askFor "scores", askFor "$"]])
        scoreFacts 2)
      (evaluate (.applied .someItem [askFor "scores", .applied .negate [askFor "$"]])
        scoreFacts 2) := by
  obtain ⟨hconnectives, hloops⟩ := evaluate_deMorgan scoreFacts 2
  have htruth : evaluate (.applied .negate [.applied .everyItem [askFor "scores", askFor "$"]])
      scoreFacts 2 = .ok (.bool true) := rfl
  have hlist : evaluate (askFor "scores") scoreFacts 0 =
      .ok (.list (.given 1) [.int 3, .int 0]) := rfl
  refine ⟨rfl, (hconnectives (by decide) [askFor "ready", .applied .fact []]).1, htruth, ?_⟩
  exact (hloops (askFor "scores") (askFor "$") ⟨0, _, _, hlist⟩).2 fun l => by
    rw [htruth]
    simp

end RuleTree
