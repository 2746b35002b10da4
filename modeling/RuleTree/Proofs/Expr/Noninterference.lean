import RuleTree.Proofs.Expr.Scan
import RuleTree.Proofs.Value.Keys
/-!
# Facts that an expression does not ask for

Two maps of facts agree on paths (`Value.Agree`) if they give the same at each of them
and at the item of a loop. Agreement on the paths that an expression asks for survives
the binding of an item (`Value.Agree.bind`), so the two evaluations stay in step through
every loop and every operand that is passed over (`Expr.eval_congr`). Hence an expression
has the same outcome on facts that its dependencies cannot tell apart
(`evaluate_eq_of_dependencies`).
-/

namespace RuleTree

/-! ## Agreement on paths -/

namespace Value

/-- Whether it is a text. -/
def isText : Value → Bool
  | str _ => true
  | _ => false

theorem exists_str_of_isText {v : Value} (h : v.isText = true) : ∃ p, v = .str p := by
  cases v with
  | str p => exact ⟨p, rfl⟩
  | _ => cases h

/-- The same fact is found in two maps after an item is bound in both, if it was before. -/
theorem factAt_bind {path : Path} {i j k : Ident} {es fs : List (String × Value)}
    (item : Value) (h : factAt path (.map i es) = factAt path (.map j fs)) :
    factAt path (.map k (Entries.put loopKey item es)) =
      factAt path (.map k (Entries.put loopKey item fs)) := by
  induction path with
  | nil =>
    -- the whole map was asked for, so the two maps are the same
    obtain ⟨-, rfl⟩ : i = j ∧ es = fs := by simpa [factAt] using h
    rfl
  | cons segment rest ih =>
    by_cases hs : segment = ""
    · simp only [factAt, hs, if_true] at h ⊢
      exact ih h
    · simp only [factAt, hs, if_false, child?] at h ⊢
      by_cases hl : segment = loopKey
      · rw [hl, Entries.get?_put_self, Entries.get?_put_self]
      · rw [Entries.get?_put_of_ne hl, Entries.get?_put_of_ne hl]
        exact h

/-- Two maps of facts give the same at the paths and at the item of a loop. -/
structure Agree (paths : List String) (facts facts' : Value) : Prop where
  left : facts.isMap = true
  right : facts'.isMap = true
  same : ∀ p, p = loopKey ∨ p ∈ paths →
    factAt (Path.ofText p) facts = factAt (Path.ofText p) facts'

namespace Agree

variable {paths : List String} {facts facts' : Value}

theorem mono {paths' : List String} (h : Agree paths facts facts') (hs : paths' ⊆ paths) :
    Agree paths' facts facts' :=
  ⟨h.left, h.right, fun p hp => h.same p (hp.imp_right fun hp => hs hp)⟩

theorem bind {i j : Ident} {es fs : List (String × Value)}
    (h : Agree paths (.map i es) (.map j fs)) (k : Ident) (item : Value) :
    Agree paths (.map k (Entries.put loopKey item es)) (.map k (Entries.put loopKey item fs)) :=
  ⟨rfl, rfl, fun p hp => factAt_bind item (h.same p hp)⟩

end Agree

end Value

/-! ## Loops -/

namespace Eval

variable {facts facts' : Value} {test test' : Value → Eval Value}

/-- Two tests have the same result on every item, each with the item in its own facts. -/
def TestsAlike (facts facts' : Value) (test test' : Value → Eval Value) : Prop :=
  ∀ item, (bindItem facts item >>= test) = (bindItem facts' item >>= test')

theorem someItem_congr (h : TestsAlike facts facts' test test') :
    ∀ items, someItem facts test items = someItem facts' test' items
  | [] => rfl
  | item :: rest => by
    rw [someItem, someItem, ← bind_assoc, ← bind_assoc, h item, someItem_congr h rest]

theorem everyItem_congr (h : TestsAlike facts facts' test test') :
    ∀ items, everyItem facts test items = everyItem facts' test' items
  | [] => rfl
  | item :: rest => by
    rw [everyItem, everyItem, ← bind_assoc, ← bind_assoc, h item, everyItem_congr h rest]

/-- Tests that go by paths on which the facts agree are alike on them. -/
theorem testsAlike_of_agree {paths : List String} (h : Value.Agree paths facts facts')
    (ht : ∀ {inner inner' : Value}, Value.Agree paths inner inner' → test inner = test' inner') :
    TestsAlike facts facts' test test' := by
  intro item
  obtain ⟨i, es, rfl⟩ := Value.exists_map_of_isMap h.left
  obtain ⟨j, fs, rfl⟩ := Value.exists_map_of_isMap h.right
  simp only [bindItem, bind_assoc, pure_bind]
  refine bind_congr fun k => ?_
  exact ht (h.bind k item)

end Eval

/-! ## Evaluation -/

/-- Whether an operator takes the values of all operands and looks at nothing else. -/
def Operator.isStrict : Operator → Bool
  | branch | allOf | anyOf | fact | someItem | everyItem => false
  | _ => true

namespace Expr

variable {limit : Int} {facts facts' : Value} {es : List Expr}

/-- The expressions have the same values on both facts, at every depth. -/
def Alike (limit : Int) (facts facts' : Value) (es : List Expr) : Prop :=
  ∀ e ∈ es, ∀ depth, eval limit e facts depth = eval limit e facts' depth

theorem Alike.tail {e : Expr} (h : Alike limit facts facts' (e :: es)) :
    Alike limit facts facts' es :=
  fun e he => h e (List.mem_cons_of_mem _ he)

theorem evalAll_congr (h : Alike limit facts facts' es) (depth : Nat) :
    evalAll limit es facts depth = evalAll limit es facts' depth := by
  induction es with
  | nil => rfl
  | cons e es ih => rw [evalAll, evalAll, h e (by simp), ih h.tail]

theorem evalFirst_congr (h : Alike limit facts facts' es) (depth : Nat) :
    evalFirst limit es facts depth = evalFirst limit es facts' depth := by
  cases es with
  | nil => rfl
  | cons e es => exact h e (by simp) depth

theorem evalSecond_congr (h : Alike limit facts facts' es) (depth : Nat) :
    evalSecond limit es facts depth = evalSecond limit es facts' depth := by
  match es with
  | [] => rfl
  | [_] => rfl
  | _ :: e :: _ => exact h e (by simp) depth

theorem evalAllOf_congr (h : Alike limit facts facts' es) (depth : Nat) :
    evalAllOf limit es facts depth = evalAllOf limit es facts' depth := by
  induction es with
  | nil => rfl
  | cons e es ih => rw [evalAllOf, evalAllOf, h e (by simp), ih h.tail]

theorem evalAnyOf_congr (h : Alike limit facts facts' es) (depth : Nat) :
    evalAnyOf limit es facts depth = evalAnyOf limit es facts' depth := by
  induction es with
  | nil => rfl
  | cons e es ih => rw [evalAnyOf, evalAnyOf, h e (by simp), ih h.tail]

theorem evalBranch_congr : ∀ {es : List Expr}, Alike limit facts facts' es → ∀ depth : Nat,
    evalBranch limit es facts depth = evalBranch limit es facts' depth
  | [], _, _ => rfl
  | [e], h, depth => h e (by simp) depth
  | condition :: result :: rest, h, depth => by
    rw [evalBranch, evalBranch, h condition (by simp), h result (by simp),
      evalBranch_congr h.tail.tail]

/-- The equation of an operator that takes the values of all operands. -/
theorem eval_apply_of_isStrict {op : Operator} (h : op.isStrict = true) (operands : List Expr)
    (facts : Value) (depth : Nat) :
    eval limit (apply op operands) facts depth = (do
      Eval.enter limit depth
      let values ← evalAll limit operands facts (depth + 1)
      EvalError.ofOverflow (op.applyTo values)) := by
  cases op <;> first | rfl | cases h

variable {test : Value → Bool}

/-- An expression that asks for facts by texts has the same value on maps of facts that
agree on the paths it asks for, and makes the same containers. -/
theorem eval_congr (htest : ∀ v, test v = true → v.isText = true) (e : Expr)
    (he : e.asksBy test = true) {facts facts' : Value}
    (h : Value.Agree e.scan.paths facts facts') (depth : Nat) :
    eval limit e facts depth = eval limit e facts' depth := by
  -- loops bind items, so the facts vary in the induction
  induction e using Expr.induction generalizing facts facts' depth with
  | literal v => rfl
  | array items ih =>
    rw [asksBy, asksByAll_iff] at he
    have hscan : ∀ e ∈ items, e.scan.error = none :=
      fun e hm => error_scan_of_asksBy e (he e hm)
    have halike : Alike limit facts facts' items :=
      fun e hm depth => ih e hm (he e hm) (h.mono (paths_scan_subset hscan hm)) depth
    rw [eval, eval, evalAll_congr halike]
  | apply op operands ih =>
    by_cases hop : op = .fact
    · subst hop
      obtain ⟨v, rest, rfl, hv⟩ := exists_literal_of_asksByFirst he
      obtain ⟨p, rfl⟩ := Value.exists_str_of_isText (htest v hv)
      have hp := h.same p (Or.inr (by simp [scan, scanFact]))
      rw [eval, eval, evalFact, evalFact, Value.factAtText, Value.factAtText, hp]
    · rw [asksBy_apply hop, asksByAll_iff] at he
      rw [scan_apply hop] at h
      have hscan : ∀ e ∈ operands, e.scan.error = none :=
        fun e hm => error_scan_of_asksBy e (he e hm)
      have halike : ∀ {inner inner' : Value}, Value.Agree (scanAll operands).paths inner inner' →
          Alike limit inner inner' operands :=
        fun h e hm depth => ih e hm (he e hm) (h.mono (paths_scan_subset hscan hm)) depth
      have htemplate : Eval.TestsAlike facts facts'
          (fun inner => evalSecond limit operands inner (depth + 1))
          (fun inner => evalSecond limit operands inner (depth + 1)) :=
        Eval.testsAlike_of_agree h fun h => evalSecond_congr (halike h) (depth + 1)
      cases op with
      | fact => exact absurd rfl hop
      | branch => rw [eval, eval, evalBranch_congr (halike h)]
      | allOf => rw [eval, eval, evalAllOf_congr (halike h)]
      | anyOf => rw [eval, eval, evalAnyOf_congr (halike h)]
      | someItem =>
        rw [eval, eval, evalFirst_congr (halike h)]
        simp only [Eval.someItem_congr htemplate]
      | everyItem =>
        rw [eval, eval, evalFirst_congr (halike h)]
        simp only [Eval.everyItem_congr htemplate]
      | _ => rw [eval_apply_of_isStrict rfl, eval_apply_of_isStrict rfl, evalAll_congr (halike h)]

end Expr

/-! ## Whole expressions -/

theorem evaluate_map (logic : Value) (id : Ident) (entries : List (String × Value))
    (limit : Int) : evaluate logic (.map id entries) limit =
      ((Expr.ofValue logic).eval limit (.map id entries) 0).run' 1 :=
  rfl

/-- Evaluation on maps of facts that agree on the paths asked for has the same outcome. -/
theorem evaluate_congr {test : Value → Bool} (htest : ∀ v, test v = true → v.isText = true)
    {logic : Value} (hlogic : (Expr.ofValue logic).asksBy test = true) {i j : Ident}
    {es fs : List (String × Value)}
    (h : Value.Agree (Expr.ofValue logic).scan.paths (.map i es) (.map j fs)) (limit : Int) :
    evaluate logic (.map i es) limit = evaluate logic (.map j fs) limit := by
  rw [evaluate_map, evaluate_map, Expr.eval_congr htest _ hlogic h]

/-! ## Reads -/

/-- The expression that asks for the fact at a written path. -/
def askFor (path : String) : Value := .ofEntries [(Operator.fact.symbol, .str path)]

/-- The expression that asks for a path gives the fact there. -/
theorem evaluate_askFor (path : String) (id : Ident) (entries : List (String × Value))
    {limit : Int} (h : 0 ≤ limit) : evaluate (askFor path) (.map id entries) limit =
      EvalError.ofIndex (Value.factAt (Path.ofText path) (.map id entries)) := by
  have hlogic : Expr.ofValue (askFor path) = .apply .fact [.literal (.str path)] := rfl
  have henter : Eval.enter limit 0 = pure () := if_neg (by simpa using h)
  rw [evaluate_map, hlogic, Expr.eval, henter, pure_bind, Expr.evalFact, Value.factAtText]
  cases Value.factAt (Path.ofText path) (.map id entries) <;> rfl

/-- Look-ups that fail alike as evaluations fail alike. -/
theorem EvalError.ofIndex_injective {α : Type} {x y : Except MalformedIndex α}
    (h : EvalError.ofIndex x = EvalError.ofIndex y) : x = y := by
  cases x with
  | ok a =>
    cases y with
    | ok b => exact congrArg Except.ok (Except.ok.inj h)
    | error _ => cases h
  | error _ =>
    cases y with
    | ok _ => cases h
    | error _ => rfl

theorem Value.factAt_loopKey {id : Ident} {entries : List (String × Value)}
    (h : Entries.get? loopKey entries = none) :
    Value.factAt (Path.ofText loopKey) (.map id entries) = .ok .null := by
  have hpath : Path.ofText loopKey = [loopKey] := rfl
  rw [hpath, Value.factAt, if_neg (by decide), Value.child?, h]
  rfl

/-- An expression that asks for facts by texts has the same outcome, value or error, on
two maps of facts without a loop's item if each of its dependencies is read alike. -/
theorem evaluate_eq_of_dependencies {logic : Value} {paths : List String}
    (hpaths : (Expr.ofValue logic).dependencies = .ok paths)
    (htexts : (Expr.ofValue logic).asksBy Value.isText = true) {i j : Ident}
    {es fs : List (String × Value)} (hes : Entries.get? loopKey es = none)
    (hfs : Entries.get? loopKey fs = none)
    (hreads : ∀ p ∈ paths, evaluate (askFor p) (.map i es) defaultDepthLimit =
      evaluate (askFor p) (.map j fs) defaultDepthLimit) (limit : Int) :
    evaluate logic (.map i es) limit = evaluate logic (.map j fs) limit := by
  have hloop : Value.factAt (Path.ofText loopKey) (.map i es) =
      Value.factAt (Path.ofText loopKey) (.map j fs) := by
    rw [Value.factAt_loopKey hes, Value.factAt_loopKey hfs]
  refine evaluate_congr (fun _ hv => hv) htexts ⟨rfl, rfl, fun p hp => ?_⟩ limit
  by_cases hl : p = loopKey
  · rw [hl, hloop]
  · have hdep : p ∈ paths :=
      (Expr.mem_dependencies_iff hpaths).mpr ⟨hp.resolve_left hl, hl⟩
    have hread := hreads p hdep
    rw [evaluate_askFor _ _ _ (by decide), evaluate_askFor _ _ _ (by decide)] at hread
    exact EvalError.ofIndex_injective hread

/-- Whether some order is above a limit. -/
def someOrderAbove : Value := .ofEntries [("some", .ofList [askFor "orders",
  .ofEntries [(">", .ofList [askFor "$.sum", askFor "limit.sum"])]])]

/-- A fact that is not among the dependencies does not matter. -/
theorem evaluate_someOrderAbove_eq_of_note :
    evaluate someOrderAbove (.map (.given 0) [
        ("orders", .list (.given 1) [.map (.given 2) [("sum", .int 5)]]),
        ("limit", .map (.given 3) [("sum", .int 7)]), ("note", .str "old")]) 9 =
      evaluate someOrderAbove (.map (.given 4) [
        ("note", .str "new"), ("limit", .map (.given 5) [("sum", .int 7)]),
        ("orders", .list (.given 1) [.map (.given 2) [("sum", .int 5)]])]) 9 := by
  have hpaths : (Expr.ofValue someOrderAbove).dependencies =
      .ok ["orders", "$.sum", "limit.sum"] := rfl
  refine evaluate_eq_of_dependencies hpaths rfl rfl rfl (fun p hp => ?_) 9
  simp only [List.mem_cons, List.not_mem_nil, or_false] at hp
  rcases hp with rfl | rfl | rfl <;> rfl

end RuleTree
