import RuleTree.Expr.Eval
/-!
# Expressions written as values

`Value.applied` is the value that stands for an operator with operands, and it is read as that
expression (`Expr.ofValue_applied`). An evaluation is the run of the expression on the facts that
are there (`evaluate_eq`).
-/

namespace RuleTree

namespace Value

/-- The expression that applies an operator to operands. -/
def applied (op : Operator) (operands : List Value) : Value :=
  ofEntries [(op.symbol, ofList operands)]

/-- The facts of an evaluation: an empty map if none are given. -/
def orEmpty (facts : Value) : Value := if facts.isNull then ofEntries [] else facts

end Value

namespace Expr

theorem ofItems_eq_map : ∀ items : List Value, ofItems items = items.map ofValue
  | [] => rfl
  | v :: rest => by rw [ofItems, ofItems_eq_map rest, List.map_cons]

theorem ofValue_applied (op : Operator) (operands : List Value) :
    ofValue (.applied op operands) = apply op (operands.map ofValue) := by
  rw [Value.applied, Value.ofEntries, Value.ofList, ofValue, ofItems_eq_map]
  simp only [Operator.ofSymbol?_symbol]

end Expr

/-- The outcome of an evaluation is that of the run that starts at its expression. -/
theorem evaluate_eq (logic facts : Value) (limit : Int) : evaluate logic facts limit =
    ((Expr.ofValue logic).eval limit facts.orEmpty 0 1).map Prod.fst :=
  rfl

/-- Evaluations have the same outcome if their runs do, unless the first one is cut off. -/
theorem evaluate_eq_of_run {logic logic' facts : Value} {limit limit' : Int}
    (hne : ∀ l, evaluate logic facts limit ≠ .error (.tooDeep l))
    (h : (∃ l, (Expr.ofValue logic).eval limit facts.orEmpty 0 1 = .error (.tooDeep l)) ∨
      (Expr.ofValue logic').eval limit' facts.orEmpty 0 1 =
        (Expr.ofValue logic).eval limit facts.orEmpty 0 1) :
    evaluate logic' facts limit' = evaluate logic facts limit := by
  rw [evaluate_eq] at hne ⊢
  rcases h with ⟨l, hl⟩ | hsame
  · rw [hl] at hne
    exact absurd rfl (hne l)
  · rw [hsame, evaluate_eq]

/-- An evaluation that gives a value is a run of the expression. -/
theorem exists_run_of_evaluate {logic facts v : Value} {limit : Int}
    (h : evaluate logic facts limit = .ok v) :
    ∃ m, (Expr.ofValue logic).eval limit facts.orEmpty 0 1 = .ok (v, m) := by
  rw [evaluate_eq] at h
  cases hrun : (Expr.ofValue logic).eval limit facts.orEmpty 0 1 with
  | error err => rw [hrun] at h; cases h
  | ok p =>
    rw [hrun] at h
    obtain rfl := Except.ok.inj h
    exact ⟨p.2, rfl⟩

end RuleTree
