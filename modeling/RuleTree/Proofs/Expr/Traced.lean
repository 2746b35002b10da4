import RuleTree.Proofs.Expr.Noninterference
/-!
# Evaluation with a trace

`Expr.trace` evaluates an expression as `Expr.eval` does, step for step, and notes each path at
which it looks up a fact, also if the evaluation fails later. `Traced.Notes` relates the two : the
outcome is the same, only paths with a given property are noted, and the outcome depends on the
facts at the noted paths alone. It is kept by every step, and so by the evaluation of operands, of
a branch, of a loop and of every operation but a fact (`Expr.noted_apply`).
-/

namespace RuleTree

/-- An evaluation that notes paths. -/
abbrev Traced := StateT Nat (ExceptT EvalError (StateM (List String)))

namespace Traced

variable {α β : Type}

/-- An evaluation that looks nothing up. -/
def silent (x : Eval α) : Traced α := fun n => ExceptT.mk (Pure.pure (x n))

/-- Note a path. -/
def note (path : String) : Traced Unit := modifyThe (List String) (· ++ [path])

/-- The outcome of an evaluation that numbers the first container that it makes with one, and the
paths that it notes. -/
def outcome (x : Traced α) : Except EvalError α × List String :=
  ((x.run 1).run.run []).map (Except.map Prod.fst) id

/-- The fact at a written path, which is noted. -/
def factAtText (path : String) (facts : Value) : Traced Value := do
  note path
  silent (facts.factAtText path)

/-- The fact at the path that a value is written as, which is noted. -/
def factAtValue (facts path : Value) : Traced Value :=
  if path.isWritable then factAtText path.written facts else throw .malformedIndex

/-- Whether some item passes, tried in order. -/
def someItem (facts : Value) (test : Value → Traced Value) : List Value → Traced Bool
  | [] => return false
  | item :: rest => do
    if (← test (← silent (Eval.bindItem facts item))).isTruthy then return true
    someItem facts test rest

/-- Whether every item passes, tried in order. -/
def everyItem (facts : Value) (test : Value → Traced Value) : List Value → Traced Bool
  | [] => return true
  | item :: rest => do
    if (← test (← silent (Eval.bindItem facts item))).isTruthy then everyItem facts test rest
    else return false

end Traced

namespace Expr

open Traced

mutual

/-- Evaluate an expression and note the paths that are looked up. -/
def trace (limit : Int) : Expr → Value → Nat → Traced Value
  | literal v, _, depth => do
    silent (Eval.enter limit depth)
    return v
  | array items, facts, depth => do
    silent (Eval.enter limit depth)
    let values ← traceAll limit items facts (depth + 1)
    return .list (← silent Eval.newIdent) values
  | apply op operands, facts, depth => do
    silent (Eval.enter limit depth)
    match op with
    | .branch => traceBranch limit operands facts (depth + 1)
    | .allOf => return .bool (← traceAllOf limit operands facts (depth + 1))
    | .anyOf => return .bool (← traceAnyOf limit operands facts (depth + 1))
    | .fact => traceFact limit operands facts (depth + 1)
    | .someItem =>
      match ← traceFirst limit operands facts (depth + 1) with
      | .list _ items =>
        return .bool (← Traced.someItem facts
          (fun inner => traceSecond limit operands inner (depth + 1)) items)
      | v => return .bool v.isTruthy
    | .everyItem =>
      match ← traceFirst limit operands facts (depth + 1) with
      | .list _ items =>
        return .bool (← Traced.everyItem facts
          (fun inner => traceSecond limit operands inner (depth + 1)) items)
      | v => return .bool v.isTruthy
    | op =>
      let values ← traceAll limit operands facts (depth + 1)
      silent (EvalError.ofOverflow (op.applyTo values))
  termination_by structural e => e

/-- Evaluate all expressions. -/
def traceAll (limit : Int) : List Expr → Value → Nat → Traced (List Value)
  | [], _, _ => return []
  | e :: es, facts, depth => do
    let v ← trace limit e facts depth
    return v :: (← traceAll limit es facts depth)
  termination_by structural es => es

/-- Evaluate the first expression. -/
def traceFirst (limit : Int) : List Expr → Value → Nat → Traced Value
  | [], _, depth => do
    silent (Eval.enter limit depth)
    return .null
  | e :: _, facts, depth => trace limit e facts depth
  termination_by structural es => es

/-- Evaluate the second expression. -/
def traceSecond (limit : Int) : List Expr → Value → Nat → Traced Value
  | _ :: e :: _, facts, depth => trace limit e facts depth
  | _, _, depth => do
    silent (Eval.enter limit depth)
    return .null
  termination_by structural es => es

/-- Evaluate conditions and the result that is chosen. -/
def traceBranch (limit : Int) : List Expr → Value → Nat → Traced Value
  | [], _, _ => return .null
  | [default], facts, depth => trace limit default facts depth
  | condition :: result :: rest, facts, depth => do
    if (← trace limit condition facts depth).isTruthy || rest.isEmpty then
      trace limit result facts depth
    else
      traceBranch limit rest facts depth
  termination_by structural es => es

/-- Evaluate expressions as long as they count as true. -/
def traceAllOf (limit : Int) : List Expr → Value → Nat → Traced Bool
  | [], _, _ => return true
  | e :: es, facts, depth => do
    if (← trace limit e facts depth).isTruthy then traceAllOf limit es facts depth
    else return false
  termination_by structural es => es

/-- Evaluate expressions up to the first one that counts as true. -/
def traceAnyOf (limit : Int) : List Expr → Value → Nat → Traced Bool
  | [], _, _ => return false
  | e :: es, facts, depth => do
    if (← trace limit e facts depth).isTruthy then return true
    else traceAnyOf limit es facts depth
  termination_by structural es => es

/-- Look up the fact at the path that the first expression gives. -/
def traceFact (limit : Int) : List Expr → Value → Nat → Traced Value
  | [], _, _ => throw .missingPath
  | literal (.str path) :: _, facts, _ => Traced.factAtText path facts
  | e :: _, facts, depth => do
    let path ← trace limit e facts depth
    Traced.factAtValue facts path
  termination_by structural es => es

end

end Expr

/-! ## Steps -/

namespace Traced

variable {α β : Type}

theorem run_bind_of_ok {y : Traced α} {g : α → Traced β} {n m : Nat} {log log' : List String}
    {a : α} (h : (y n).run.run log = (.ok (a, m), log')) :
    ((y >>= g) n).run.run log = (g a m).run.run log' := by
  have hbind : (y >>= g) n = (y n >>= fun p => g p.1 p.2) := rfl
  rw [hbind, ExceptT.run_bind, StateT.run_bind, h]
  rfl

theorem run_bind_of_error {y : Traced α} {g : α → Traced β} {n : Nat} {log log' : List String}
    {err : EvalError} (h : (y n).run.run log = (.error err, log')) :
    ((y >>= g) n).run.run log = (.error err, log') := by
  have hbind : (y >>= g) n = (y n >>= fun p => g p.1 p.2) := rfl
  rw [hbind, ExceptT.run_bind, StateT.run_bind, h]
  rfl

variable {P Q : String → Prop} {limit : Int} {facts facts' : Value}

/-- The second computation has the outcome of the first one and notes only paths with a property.
So does the third one, on other facts, if the facts agree on the paths that the second one notes. -/
def Notes (P : String → Prop) (facts facts' : Value) (x : Eval α) (y z : Traced α) : Prop :=
  ∀ n log, ∃ noted, (∀ p ∈ noted, P p) ∧ (y n).run.run log = (x n, log ++ noted) ∧
    (Value.Agree (log ++ noted) facts facts' → (z n).run.run log = (x n, log ++ noted))

namespace Notes

theorem silent (x : Eval α) : Notes P facts facts' x (Traced.silent x) (Traced.silent x) := by
  intro n log
  have hrun : (Traced.silent x n).run.run log = (x n, log ++ []) := by
    rw [List.append_nil]
    rfl
  exact ⟨[], nofun, hrun, fun _ => hrun⟩

theorem pure (a : α) : Notes P facts facts' (Pure.pure a) (Pure.pure a) (Pure.pure a) :=
  silent (Pure.pure a)

theorem throw (err : EvalError) : Notes P facts facts' (MonadExcept.throw err : Eval α)
    (MonadExcept.throw err) (MonadExcept.throw err) :=
  silent (MonadExcept.throw err)

theorem mono {x : Eval α} {y z : Traced α} (h : Notes P facts facts' x y z)
    (hPQ : ∀ p, P p → Q p) : Notes Q facts facts' x y z := by
  intro n log
  obtain ⟨noted, hnoted, hrest⟩ := h n log
  exact ⟨noted, fun p hp => hPQ p (hnoted p hp), hrest⟩

/-- Computations that note their look-ups do so one after the other. -/
theorem bind {x : Eval α} {y z : Traced α} {f : α → Eval β} {g k : α → Traced β}
    (hx : Notes P facts facts' x y z) (hf : ∀ a, Notes P facts facts' (f a) (g a) (k a)) :
    Notes P facts facts' (x >>= f) (y >>= g) (z >>= k) := by
  intro n log
  obtain ⟨noted, hnoted, hy, hz⟩ := hx n log
  have hbind : (x >>= f) n = (x n >>= fun p => f p.1 p.2) := rfl
  rw [hbind]
  cases hxn : x n with
  | error err =>
    rw [hxn] at hy hz
    exact ⟨noted, hnoted, run_bind_of_error hy, fun h => run_bind_of_error (hz h)⟩
  | ok p =>
    rw [hxn] at hy hz
    obtain ⟨more, hmore, hg, hk⟩ := hf p.1 p.2 (log ++ noted)
    rw [List.append_assoc] at hg hk
    refine ⟨noted ++ more, fun q hq => ?_, (run_bind_of_ok hy).trans hg, fun h => ?_⟩
    · exact (List.mem_append.mp hq).elim (hnoted q) (hmore q)
    · have hfirst : Value.Agree (log ++ noted) facts facts' := by
        rw [← List.append_assoc] at h
        exact h.mono (List.subset_append_left _ _)
      exact (run_bind_of_ok (hz hfirst)).trans (hk h)

/-- A look-up of a path of the kind is noted. -/
theorem factAtText {path : String} (h : P path) : Notes P facts facts' (facts.factAtText path)
    (Traced.factAtText path facts) (Traced.factAtText path facts') := by
  intro n log
  refine ⟨[path], List.forall_mem_singleton.mpr h, rfl, fun hagree => ?_⟩
  have hsame : facts'.factAtText path = facts.factAtText path := by
    rw [Value.factAtText, Value.factAtText, hagree.same path (Or.inr (by simp))]
  rw [Traced.factAtText, hsame]
  rfl

/-- A value is noted as it is written, if it can be written. -/
theorem factAtValue {path : Value} (h : P path.written) :
    Notes P facts facts' (facts.factAtValue path) (Traced.factAtValue facts path)
      (Traced.factAtValue facts' path) := by
  rw [Value.factAtValue, Traced.factAtValue, Traced.factAtValue]
  split
  · exact .factAtText h
  · exact .throw _

/-! ## Loops -/

variable {test : Value → Eval Value} {test' : Value → Traced Value}

/-- An item is tested in facts that agree if those around it do. -/
theorem bindItem (htest : ∀ inner inner', Notes P inner inner' (test inner) (test' inner)
    (test' inner')) (item : Value) :
    Notes P facts facts' (Eval.bindItem facts item >>= test)
      (Traced.silent (Eval.bindItem facts item) >>= test')
      (Traced.silent (Eval.bindItem facts' item) >>= test') := by
  intro n log
  cases facts with
  | map i es =>
    cases facts' with
    | map j fs =>
      obtain ⟨noted, hnoted, hy, hz⟩ := htest (.map (.made n) (Entries.put loopKey item es))
        (.map (.made n) (Entries.put loopKey item fs)) (n + 1) log
      exact ⟨noted, hnoted, (run_bind_of_ok rfl).trans hy,
        fun hagree => (run_bind_of_ok rfl).trans (hz (hagree.bind (.made n) item))⟩
    | _ =>
      obtain ⟨noted, hnoted, hy, -⟩ := htest (.map (.made n) (Entries.put loopKey item es))
        .null (n + 1) log
      exact ⟨noted, hnoted, (run_bind_of_ok rfl).trans hy,
        fun hagree => absurd hagree.right Bool.false_ne_true⟩
  | _ =>
    refine ⟨[], nofun, ?_, fun hagree => absurd hagree.left Bool.false_ne_true⟩
    rw [List.append_nil]
    exact run_bind_of_error rfl

/-- A search for an item notes what its tests look up. -/
theorem someItem (htest : ∀ inner inner', Notes P inner inner' (test inner) (test' inner)
    (test' inner')) (items : List Value) :
    Notes P facts facts' (Eval.someItem facts test items) (Traced.someItem facts test' items)
      (Traced.someItem facts' test' items) := by
  induction items with
  | nil => exact pure false
  | cons item rest ih =>
    rw [Eval.someItem, Traced.someItem, Traced.someItem, ← bind_assoc, ← bind_assoc, ← bind_assoc]
    refine (bindItem htest item).bind fun v => ?_
    split
    · exact pure true
    · exact ih

/-- A check of all items notes what its tests look up. -/
theorem everyItem (htest : ∀ inner inner', Notes P inner inner' (test inner) (test' inner)
    (test' inner')) (items : List Value) :
    Notes P facts facts' (Eval.everyItem facts test items) (Traced.everyItem facts test' items)
      (Traced.everyItem facts' test' items) := by
  induction items with
  | nil => exact pure true
  | cons item rest ih =>
    rw [Eval.everyItem, Traced.everyItem, Traced.everyItem, ← bind_assoc, ← bind_assoc,
      ← bind_assoc]
    refine (bindItem htest item).bind fun v => ?_
    split
    · exact ih
    · exact pure false

end Notes

end Traced

/-! ## Operands -/

namespace Expr

open Traced

/-- With a trace an expression is evaluated as without one. Only paths with a property are noted,
and on facts that agree on these it is evaluated alike. -/
def Noted (P : String → Prop) (limit : Int) (e : Expr) : Prop :=
  ∀ facts facts' depth, Notes P facts facts' (eval limit e facts depth)
    (trace limit e facts depth) (trace limit e facts' depth)

variable {P : String → Prop} {limit : Int} {es : List Expr}

section Operands

variable (facts facts' : Value) (depth : Nat)

theorem notes_evalAll : ∀ {es : List Expr}, (∀ e ∈ es, Noted P limit e) →
    Notes P facts facts' (evalAll limit es facts depth) (traceAll limit es facts depth)
      (traceAll limit es facts' depth)
  | [], _ => .pure []
  | e :: es, h => by
    obtain ⟨he, hes⟩ := List.forall_mem_cons.mp h
    exact (he facts facts' depth).bind fun v =>
      (notes_evalAll hes).bind fun vs => .pure (v :: vs)

theorem notes_evalFirst (h : ∀ e ∈ es, Noted P limit e) :
    Notes P facts facts' (evalFirst limit es facts depth) (traceFirst limit es facts depth)
      (traceFirst limit es facts' depth) := by
  cases es with
  | nil => exact (Notes.silent _).bind fun _ => .pure _
  | cons e es => exact h e (List.mem_cons_self ..) facts facts' depth

theorem notes_evalSecond (h : ∀ e ∈ es, Noted P limit e) :
    Notes P facts facts' (evalSecond limit es facts depth) (traceSecond limit es facts depth)
      (traceSecond limit es facts' depth) := by
  match es, h with
  | [], _ | [_], _ => exact (Notes.silent _).bind fun _ => .pure _
  | _ :: e :: _, h => exact h e (by simp) facts facts' depth

/-- The choice of a branch notes what the conditions and the branch look up. -/
theorem notes_evalBranch : ∀ {es : List Expr}, (∀ e ∈ es, Noted P limit e) →
    Notes P facts facts' (evalBranch limit es facts depth) (traceBranch limit es facts depth)
      (traceBranch limit es facts' depth)
  | [], _ => .pure _
  | [e], h => h e (List.mem_cons_self ..) facts facts' depth
  | condition :: result :: rest, h => by
    refine (h condition (by simp) facts facts' depth).bind fun v => ?_
    split
    · exact h result (by simp) facts facts' depth
    · exact notes_evalBranch fun e he => h e (by simp [he])

theorem notes_evalAllOf : ∀ {es : List Expr}, (∀ e ∈ es, Noted P limit e) →
    Notes P facts facts' (evalAllOf limit es facts depth) (traceAllOf limit es facts depth)
      (traceAllOf limit es facts' depth)
  | [], _ => .pure true
  | e :: es, h => by
    obtain ⟨he, hes⟩ := List.forall_mem_cons.mp h
    refine (he facts facts' depth).bind fun v => ?_
    split
    · exact notes_evalAllOf hes
    · exact .pure false

theorem notes_evalAnyOf : ∀ {es : List Expr}, (∀ e ∈ es, Noted P limit e) →
    Notes P facts facts' (evalAnyOf limit es facts depth) (traceAnyOf limit es facts depth)
      (traceAnyOf limit es facts' depth)
  | [], _ => .pure false
  | e :: es, h => by
    obtain ⟨he, hes⟩ := List.forall_mem_cons.mp h
    refine (he facts facts' depth).bind fun v => ?_
    split
    · exact .pure true
    · exact notes_evalAnyOf hes

/-- A fact is looked up at the written form of its first operand, or of what that one stands
for. -/
theorem notes_evalFact (hliteral : ∀ v rest, es = literal v :: rest → P v.written)
    (hother : ∀ e rest, es = e :: rest → (∀ v, e ≠ literal v) →
      Noted P limit e ∧ ∀ p, P p) :
    Notes P facts facts' (evalFact limit es facts depth) (traceFact limit es facts depth)
      (traceFact limit es facts' depth) := by
  match es with
  | [] => exact .throw _
  | literal v :: rest =>
    have hfound : Notes P facts facts' (facts.factAtValue v) (Traced.factAtValue facts v)
        (Traced.factAtValue facts' v) := .factAtValue (hliteral v rest rfl)
    have hcomputed : Notes P facts facts'
        (eval limit (literal v) facts depth >>= fun path => facts.factAtValue path)
        (trace limit (literal v) facts depth >>= fun path => Traced.factAtValue facts path)
        (trace limit (literal v) facts' depth >>= fun path => Traced.factAtValue facts' path) := by
      rw [eval, trace, trace, bind_assoc, bind_assoc, bind_assoc]
      exact (Notes.silent _).bind fun _ => hfound
    cases v with
    | str path => exact hfound
    | _ => exact hcomputed
  | array items :: rest | apply op operands :: rest =>
    obtain ⟨h, hall⟩ := hother _ rest rfl fun v heq => by cases heq
    exact (h facts facts' depth).bind fun path => .factAtValue (hall _)

end Operands

/-- Any operation but a fact notes what its operands note. -/
theorem noted_apply {op : Operator} (hop : op ≠ .fact) {operands : List Expr}
    (h : ∀ e ∈ operands, Noted P limit e) : Noted P limit (.apply op operands) := by
  intro facts facts' depth
  have hsecond : ∀ inner inner', Notes P inner inner'
      (evalSecond limit operands inner (depth + 1)) (traceSecond limit operands inner (depth + 1))
      (traceSecond limit operands inner' (depth + 1)) :=
    fun inner inner' => notes_evalSecond inner inner' (depth + 1) h
  refine (Notes.silent _).bind fun _ => ?_
  cases op with
  | fact => exact absurd rfl hop
  | branch => exact notes_evalBranch facts facts' (depth + 1) h
  | allOf => exact (notes_evalAllOf facts facts' (depth + 1) h).bind fun _ => .pure _
  | anyOf => exact (notes_evalAnyOf facts facts' (depth + 1) h).bind fun _ => .pure _
  | someItem =>
    refine (notes_evalFirst facts facts' (depth + 1) h).bind fun v => ?_
    cases v with
    | list id items => exact (Notes.someItem hsecond items).bind fun _ => .pure _
    | _ => exact .pure _
  | everyItem =>
    refine (notes_evalFirst facts facts' (depth + 1) h).bind fun v => ?_
    cases v with
    | list id items => exact (Notes.everyItem hsecond items).bind fun _ => .pure _
    | _ => exact .pure _
  | _ => exact (notes_evalAll facts facts' (depth + 1) h).bind fun _ => .silent _

end Expr

end RuleTree
