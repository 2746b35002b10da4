import RuleTree.Expr.Eval
import RuleTree.Proofs.Outcome
/-!
# How evaluations end

`Eval.Ends` says which results a computation can give and which errors it can fail with. It is
kept by every step that computations are made of, so what holds of the evaluation of each
operand holds of the evaluation of operands one after the other, of a branch, of a fact and of
a loop. If only the errors matter, a whole operation ends as its operands do
(`Expr.ends_apply`).
-/

namespace RuleTree

namespace Eval

variable {α β : Type}

/-- A computation gives only results with a property and fails only with errors of a kind. -/
structure Ends (result : α → Prop) (failure : EvalError → Prop) (x : Eval α) : Prop where
  of_ok : ∀ n a m, x n = .ok (a, m) → result a
  of_error : ∀ n err, x n = .error err → failure err

namespace Ends

variable {result : α → Prop} {next : β → Prop} {failure : EvalError → Prop} {limit : Int}

/-! ## Steps -/

theorem pure {a : α} (h : result a) : Ends result failure (Pure.pure a : Eval α) where
  of_ok n b m heq := by
    cases heq
    exact h
  of_error n err heq := by cases heq

theorem throw {err : EvalError} (h : failure err) :
    Ends result failure (MonadExcept.throw err : Eval α) where
  of_ok n a m heq := by cases heq
  of_error n err' heq := by
    obtain rfl : err = err' := Except.error.inj heq
    exact h

theorem mono {other : α → Prop} {x : Eval α} (hx : Ends result failure x)
    (h : ∀ a, result a → other a) : Ends other failure x where
  of_ok n a m heq := h a (hx.of_ok n a m heq)
  of_error := hx.of_error

/-- Computations that end one after the other end. -/
theorem bind {x : Eval α} {f : α → Eval β} (hx : Ends result failure x)
    (hf : ∀ a, result a → Ends next failure (f a)) : Ends next failure (x >>= f) where
  of_ok n b m heq := by
    obtain ⟨⟨a, k⟩, hfirst, hsecond⟩ := exists_of_bind_eq_ok heq
    exact (hf a (hx.of_ok n a k hfirst)).of_ok k b m hsecond
  of_error n err heq := by
    rcases of_bind_eq_error heq with hfirst | ⟨⟨a, k⟩, hfirst, hsecond⟩
    · exact hx.of_error n err hfirst
    · exact (hf a (hx.of_ok n a k hfirst)).of_error k err hsecond

/-- An outcome of something else than an evaluation. -/
theorem lift {x : Except EvalError α} (hok : ∀ a, x = .ok a → result a)
    (herror : ∀ err, x = .error err → failure err) :
    Ends result failure (liftM x : Eval α) := by
  cases x with
  | ok a => exact pure (hok a rfl)
  | error err => exact throw (herror err rfl)

theorem ofOverflow (h : failure .overflow) (x : Except Overflow α) :
    Ends (fun _ => True) failure (liftM (EvalError.ofOverflow x) : Eval α) := by
  refine lift (fun _ _ => trivial) fun err herr => ?_
  obtain ⟨_, -, rfl⟩ := exists_of_mapError_eq_error herr
  exact h

theorem ofIndex (h : failure .malformedIndex) (x : Except MalformedIndex α) :
    Ends (fun _ => True) failure (liftM (EvalError.ofIndex x) : Eval α) := by
  refine lift (fun _ _ => trivial) fun err herr => ?_
  obtain ⟨_, -, rfl⟩ := exists_of_mapError_eq_error herr
  exact h

/-- A level is entered, unless that fails for the depth. -/
theorem enter {depth : Nat} (h : limit < depth → failure (.tooDeep limit)) :
    Ends (fun _ => True) failure (Eval.enter limit depth) := by
  unfold Eval.enter
  split
  · next hd => exact throw (h hd)
  · exact pure trivial

theorem newIdent : Ends (fun _ => True) failure Eval.newIdent where
  of_ok _ _ _ _ := trivial
  of_error n err heq := by cases heq

/-! ## Loops -/

variable {inner : Value → Prop} {facts : Value} {test : Value → Eval Value}

/-- The facts with an item, unless the facts are no map. -/
theorem bindItem {item : Value} (hmap : ∀ id entries k, facts = .map id entries →
      inner (.map k (Entries.put loopKey item entries)))
    (hother : facts.isMap = false → failure .factsNotMap) :
    Ends inner failure (Eval.bindItem facts item) := by
  cases facts with
  | map id entries => exact newIdent.bind fun k _ => pure (hmap id entries k rfl)
  | _ => exact throw (hother rfl)

/-- A search for an item ends if binding each item and each test does. -/
theorem someItem (htest : ∀ v, inner v → Ends (fun _ => True) failure (test v)) :
    ∀ {items : List Value}, (∀ item ∈ items, Ends inner failure (Eval.bindItem facts item)) →
      Ends (fun _ => True) failure (Eval.someItem facts test items)
  | [], _ => pure trivial
  | item :: rest, hbind => by
    have hrest := someItem htest fun item hm => hbind item (List.mem_cons_of_mem _ hm)
    refine (hbind item (by simp)).bind fun v hv => (htest v hv).bind fun w _ => ?_
    split
    · exact pure trivial
    · exact hrest

/-- A check of all items ends if binding each item and each test does. -/
theorem everyItem (htest : ∀ v, inner v → Ends (fun _ => True) failure (test v)) :
    ∀ {items : List Value}, (∀ item ∈ items, Ends inner failure (Eval.bindItem facts item)) →
      Ends (fun _ => True) failure (Eval.everyItem facts test items)
  | [], _ => pure trivial
  | item :: rest, hbind => by
    have hrest := everyItem htest fun item hm => hbind item (List.mem_cons_of_mem _ hm)
    refine (hbind item (by simp)).bind fun v hv => (htest v hv).bind fun w _ => ?_
    split
    · exact hrest
    · exact pure trivial

end Ends

end Eval

/-! ## Operands -/

namespace Expr

open Eval

variable {failure : EvalError → Prop} {limit : Int} {facts : Value} {depth : Nat}
  {es : List Expr}

/-- Operands that are all evaluated have a result each. -/
theorem ends_evalAll {result : Expr → Value → Prop} :
    ∀ {es : List Expr}, (∀ e ∈ es, Ends (result e) failure (eval limit e facts depth)) →
      Ends (List.Forall₂ result es) failure (evalAll limit es facts depth)
  | [], _ => .pure .nil
  | e :: es, h => by
    have hrest := ends_evalAll fun e hm => h e (List.mem_cons_of_mem _ hm)
    exact (h e (by simp)).bind fun v hv => hrest.bind fun vs hvs => .pure (.cons hv hvs)

variable {result : Value → Prop}

theorem ends_evalFirst (hdepth : limit < depth → failure (.tooDeep limit))
    (hnull : result .null) (h : ∀ e ∈ es, Ends result failure (eval limit e facts depth)) :
    Ends result failure (evalFirst limit es facts depth) := by
  cases es with
  | nil => exact (Ends.enter hdepth).bind fun _ _ => .pure hnull
  | cons e es => exact h e (by simp)

theorem ends_evalSecond (hdepth : limit < depth → failure (.tooDeep limit))
    (hnull : result .null) (h : ∀ e ∈ es, Ends result failure (eval limit e facts depth)) :
    Ends result failure (evalSecond limit es facts depth) := by
  match es with
  | [] | [_] => exact (Ends.enter hdepth).bind fun _ _ => .pure hnull
  | _ :: e :: _ => exact h e (by simp)

/-- Branches end if all operands do; null stands for a missing last one. -/
theorem ends_evalBranch (hnull : result .null) :
    ∀ {es : List Expr}, (∀ e ∈ es, Ends result failure (eval limit e facts depth)) →
      Ends result failure (evalBranch limit es facts depth)
  | [], _ => .pure hnull
  | [e], h => h e (by simp)
  | condition :: result :: rest, h => by
    have hrest := ends_evalBranch hnull fun e (hm : e ∈ rest) => h e (by simp [hm])
    refine (h condition (by simp)).bind fun v _ => ?_
    split
    · exact h result (by simp)
    · exact hrest

theorem ends_evalAllOf : ∀ {es : List Expr},
    (∀ e ∈ es, Ends result failure (eval limit e facts depth)) →
      Ends (fun _ => True) failure (evalAllOf limit es facts depth)
  | [], _ => .pure trivial
  | e :: es, h => by
    have hrest := ends_evalAllOf fun e hm => h e (List.mem_cons_of_mem _ hm)
    refine (h e (by simp)).bind fun v _ => ?_
    split
    · exact hrest
    · exact .pure trivial

theorem ends_evalAnyOf : ∀ {es : List Expr},
    (∀ e ∈ es, Ends result failure (eval limit e facts depth)) →
      Ends (fun _ => True) failure (evalAnyOf limit es facts depth)
  | [], _ => .pure trivial
  | e :: es, h => by
    have hrest := ends_evalAnyOf fun e hm => h e (List.mem_cons_of_mem _ hm)
    refine (h e (by simp)).bind fun v _ => ?_
    split
    · exact .pure trivial
    · exact hrest

/-- A fact is looked up at the written form of what the first operand stands for. -/
theorem ends_evalFact {path : Value → Prop} (hmissing : es = [] → failure .missingPath)
    (hliteral : ∀ v, literal v ∈ es → path v)
    (h : ∀ e, es.head? = some e → Ends path failure (eval limit e facts depth))
    (hlookup : ∀ v, path v → Ends result failure (facts.factAtValue v)) :
    Ends result failure (evalFact limit es facts depth) := by
  match es with
  | [] => exact .throw (hmissing rfl)
  | e :: rest =>
    have hcomputed : Ends result failure (do
        let path ← eval limit e facts depth
        facts.factAtValue path) := (h e rfl).bind hlookup
    cases e with
    | literal v =>
      cases v with
      | str path => exact hlookup (.str path) (hliteral _ (by simp))
      | _ => exact hcomputed
    | _ => exact hcomputed

/-! ## Expressions that fail only in a given way -/

variable {op : Operator} {operands items : List Expr}

theorem ends_array (hdepth : limit < depth → failure (.tooDeep limit))
    (h : ∀ e ∈ items, Ends (fun _ => True) failure (eval limit e facts (depth + 1))) :
    Ends (fun _ => True) failure (eval limit (.array items) facts depth) :=
  (Ends.enter hdepth).bind fun _ _ =>
    (ends_evalAll h).bind fun _ _ => Ends.newIdent.bind fun _ _ => .pure trivial

/-- A look-up fails only by an index that is malformed. -/
theorem ends_factAtValue (hindex : failure .malformedIndex) (path : Value) :
    Ends (fun _ => True) failure (facts.factAtValue path) := by
  rw [Value.factAtValue]
  split
  · exact .ofIndex hindex _
  · exact .throw hindex

/-- A fact fails as the computation of its path does, or because it has none. -/
theorem ends_fact (hdepth : limit < depth → failure (.tooDeep limit))
    (hmissing : operands = [] → failure .missingPath) (hindex : failure .malformedIndex)
    (h : ∀ e, operands.head? = some e →
      Ends (fun _ => True) failure (eval limit e facts (depth + 1))) :
    Ends (fun _ => True) failure (eval limit (.apply .fact operands) facts depth) :=
  (Ends.enter hdepth).bind fun _ _ =>
    ends_evalFact hmissing (fun _ _ => trivial) h fun path _ => ends_factAtValue hindex path

/-- Any other operation fails as its operands do, or by an error that is no fault. -/
theorem ends_apply (hop : op ≠ .fact)
    (hdepth : ∀ level ≤ depth + 1, limit < level → failure (.tooDeep limit))
    (hplain : ∀ err, err.isFault = false → failure err)
    (h : ∀ inner, ∀ e ∈ operands,
      Ends (fun _ => True) failure (eval limit e inner (depth + 1))) :
    Ends (fun _ => True) failure (eval limit (.apply op operands) facts depth) := by
  have hlevel : limit < (depth + 1 : Nat) → failure (.tooDeep limit) := hdepth _ (Nat.le_refl _)
  have hbind : ∀ item, Ends (fun _ => True) failure (Eval.bindItem facts item) :=
    fun item => .bindItem (fun _ _ _ _ => trivial) fun _ => hplain _ rfl
  have hsecond : ∀ inner, True →
      Ends (fun _ => True) failure (evalSecond limit operands inner (depth + 1)) :=
    fun inner _ => ends_evalSecond hlevel trivial (h inner)
  refine (Ends.enter (hdepth _ (Nat.le_succ _))).bind fun _ _ => ?_
  cases op with
  | fact => exact absurd rfl hop
  | branch => exact ends_evalBranch trivial (h facts)
  | allOf => exact (ends_evalAllOf (h facts)).bind fun _ _ => .pure trivial
  | anyOf => exact (ends_evalAnyOf (h facts)).bind fun _ _ => .pure trivial
  | someItem =>
    refine (ends_evalFirst hlevel trivial (h facts)).bind fun v _ => ?_
    cases v with
    | list id items =>
      exact (Ends.someItem hsecond fun item _ => hbind item).bind fun _ _ => .pure trivial
    | _ => exact .pure trivial
  | everyItem =>
    refine (ends_evalFirst hlevel trivial (h facts)).bind fun v _ => ?_
    cases v with
    | list id items =>
      exact (Ends.everyItem hsecond fun item _ => hbind item).bind fun _ _ => .pure trivial
    | _ => exact .pure trivial
  | _ => exact (ends_evalAll (h facts)).bind fun _ _ => .ofOverflow (hplain _ rfl) _

end Expr

end RuleTree
