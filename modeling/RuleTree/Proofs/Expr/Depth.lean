import RuleTree.Proofs.Expr.Scan
import RuleTree.Proofs.Expr.Endings
/-!
# The depth of an evaluation

A depth limit does nothing but cut an evaluation off : under a higher limit, or from less deep,
it ends in the same way, unless it was cut off before (`Expr.sameUnlessTooDeep_of_room`). It is
never cut off if the limit is at least the height of the expression, whatever the facts are
(`Expr.ends_eval_of_height`).
-/

namespace RuleTree

/-! ## Evaluations that are cut off -/

namespace Eval

/-- The second computation does what the first one does, unless the first one is cut off. -/
def SameUnlessTooDeep {α : Type} (x y : Eval α) : Prop :=
  ∀ n, (∃ l, x n = .error (.tooDeep l)) ∨ y n = x n

namespace SameUnlessTooDeep

variable {α β : Type} {limit limit' : Int} {depth depth' : Nat}

theorem refl (x : Eval α) : SameUnlessTooDeep x x := fun _ => Or.inr rfl

/-- A computation goes on in the same way from each result that the first part of it can give. -/
theorem bind_run {x y : Eval α} {f g : α → Eval β} {n : Nat} (hx : SameUnlessTooDeep x y)
    (hf : ∀ a m, x n = .ok (a, m) → (∃ l, f a m = .error (.tooDeep l)) ∨ g a m = f a m) :
    (∃ l, (x >>= f) n = .error (.tooDeep l)) ∨ (y >>= g) n = (x >>= f) n := by
  have hbind : ∀ (z : Eval α) (h : α → Eval β), (z >>= h) n = (z n >>= fun p => h p.1 p.2) :=
    fun _ _ => rfl
  rw [hbind, hbind]
  rcases hx n with ⟨l, hl⟩ | hsame
  · rw [hl]
    exact Or.inl ⟨l, rfl⟩
  · rw [hsame]
    cases hfirst : x n with
    | error err => exact Or.inr rfl
    | ok p => exact hf p.1 p.2 hfirst

theorem bind {x y : Eval α} {f g : α → Eval β} (hx : SameUnlessTooDeep x y)
    (hf : ∀ a, SameUnlessTooDeep (f a) (g a)) : SameUnlessTooDeep (x >>= f) (y >>= g) :=
  fun _ => hx.bind_run fun a m _ => hf a m

/-- Where there is at least as much room, a level that can be entered still can. -/
theorem enter (h : limit - depth ≤ limit' - depth') :
    SameUnlessTooDeep (Eval.enter limit depth) (Eval.enter limit' depth') := by
  intro n
  by_cases hd : limit < depth
  · refine Or.inl ⟨limit, ?_⟩
    rw [Eval.enter, if_pos hd]
    rfl
  · refine Or.inr ?_
    rw [Eval.enter, Eval.enter, if_neg hd, if_neg (by omega)]

/-- A step into an expression only adds a way to be cut off. -/
theorem enter_bind {x y : Eval α} (h : SameUnlessTooDeep x y) (limit : Int) (depth : Nat) :
    SameUnlessTooDeep (Eval.enter limit depth >>= fun _ => x) y := by
  intro n
  by_cases hd : limit < depth
  · refine Or.inl ⟨limit, ?_⟩
    rw [Eval.enter, if_pos hd]
    rfl
  · rw [Eval.enter, if_neg hd]
    exact h n

variable {test test' : Value → Eval Value} {facts : Value}

/-- A search for an item goes on alike if the tests do. -/
theorem someItem (h : ∀ inner, SameUnlessTooDeep (test inner) (test' inner)) :
    ∀ items, SameUnlessTooDeep (Eval.someItem facts test items) (Eval.someItem facts test' items)
  | [] => refl _
  | item :: rest => by
    rw [Eval.someItem, Eval.someItem]
    refine (refl _).bind fun inner => (h inner).bind fun v => ?_
    split
    · exact refl _
    · exact someItem h rest

/-- A check of all items goes on alike if the tests do. -/
theorem everyItem (h : ∀ inner, SameUnlessTooDeep (test inner) (test' inner)) :
    ∀ items, SameUnlessTooDeep (Eval.everyItem facts test items) (Eval.everyItem facts test' items)
  | [] => refl _
  | item :: rest => by
    rw [Eval.everyItem, Eval.everyItem]
    refine (refl _).bind fun inner => (h inner).bind fun v => ?_
    split
    · exact everyItem h rest
    · exact refl _

end SameUnlessTooDeep

end Eval

namespace Expr

open Eval

variable {limit limit' : Int} {depth depth' : Nat} {es : List Expr}

/-- No expression ends in another way with the second limit and depth, unless it is cut off with
the first ones. -/
def Unhindered (limit limit' : Int) (depth depth' : Nat) (es : List Expr) : Prop :=
  ∀ e ∈ es, ∀ facts,
    SameUnlessTooDeep (eval limit e facts depth) (eval limit' e facts depth')

namespace Unhindered

variable {e : Expr}

theorem head (h : Unhindered limit limit' depth depth' (e :: es)) (facts : Value) :
    SameUnlessTooDeep (eval limit e facts depth) (eval limit' e facts depth') :=
  h e (List.mem_cons_self ..) facts

theorem tail (h : Unhindered limit limit' depth depth' (e :: es)) :
    Unhindered limit limit' depth depth' es :=
  fun e he => h e (List.mem_cons_of_mem _ he)

theorem evalAll (h : Unhindered limit limit' depth depth' es) (facts : Value) :
    SameUnlessTooDeep (evalAll limit es facts depth) (evalAll limit' es facts depth') := by
  induction es with
  | nil => exact .refl _
  | cons e es ih => exact (h.head facts).bind fun v => (ih h.tail).bind fun vs => .refl _

theorem evalFirst (hroom : limit - depth ≤ limit' - depth')
    (h : Unhindered limit limit' depth depth' es) (facts : Value) :
    SameUnlessTooDeep (evalFirst limit es facts depth) (evalFirst limit' es facts depth') := by
  cases es with
  | nil => exact (SameUnlessTooDeep.enter hroom).bind fun _ => .refl _
  | cons e es => exact h.head facts

theorem evalSecond (hroom : limit - depth ≤ limit' - depth')
    (h : Unhindered limit limit' depth depth' es) (facts : Value) :
    SameUnlessTooDeep (evalSecond limit es facts depth) (evalSecond limit' es facts depth') := by
  match es, h with
  | [], _ | [_], _ => exact (SameUnlessTooDeep.enter hroom).bind fun _ => .refl _
  | _ :: e :: _, h => exact h.tail.head facts

theorem evalBranch : ∀ {es : List Expr}, Unhindered limit limit' depth depth' es → ∀ facts : Value,
    SameUnlessTooDeep (evalBranch limit es facts depth) (evalBranch limit' es facts depth')
  | [], _, _ => .refl _
  | [e], h, facts => h.head facts
  | condition :: result :: rest, h, facts => by
    rw [Expr.evalBranch, Expr.evalBranch]
    refine (h.head facts).bind fun v => ?_
    split
    · exact h.tail.head facts
    · exact evalBranch h.tail.tail facts

theorem evalAllOf (h : Unhindered limit limit' depth depth' es) (facts : Value) :
    SameUnlessTooDeep (evalAllOf limit es facts depth) (evalAllOf limit' es facts depth') := by
  induction es with
  | nil => exact .refl _
  | cons e es ih =>
    rw [Expr.evalAllOf, Expr.evalAllOf]
    refine (h.head facts).bind fun v => ?_
    split
    · exact ih h.tail
    · exact .refl _

theorem evalAnyOf (h : Unhindered limit limit' depth depth' es) (facts : Value) :
    SameUnlessTooDeep (evalAnyOf limit es facts depth) (evalAnyOf limit' es facts depth') := by
  induction es with
  | nil => exact .refl _
  | cons e es ih =>
    rw [Expr.evalAnyOf, Expr.evalAnyOf]
    refine (h.head facts).bind fun v => ?_
    split
    · exact .refl _
    · exact ih h.tail

/-- A look-up has the same path and the same standard value with more room. -/
theorem evalFact (h : Unhindered limit limit' depth depth' es) (facts : Value) :
    SameUnlessTooDeep (evalFact limit es facts depth) (evalFact limit' es facts depth') := by
  match es, h with
  | [], _ => exact .refl _
  | e :: rest, h =>
    have hcomputed : SameUnlessTooDeep
        (eval limit e facts depth >>= fun path => facts.factAtValue path)
        (eval limit' e facts depth' >>= fun path => facts.factAtValue path) :=
      (h.head facts).bind fun path => .refl _
    cases e with
    | literal v =>
      cases v with
      | str path => exact .refl _
      | _ => exact hcomputed
    | _ => exact hcomputed

end Unhindered

/-- With at least as much room below the limit an expression ends in the same way, unless the
smaller room cuts it off. -/
theorem sameUnlessTooDeep_of_room (e : Expr) : ∀ {depth depth' : Nat},
    limit - depth ≤ limit' - depth' → ∀ facts,
      SameUnlessTooDeep (eval limit e facts depth) (eval limit' e facts depth') := by
  induction e using Expr.induction with
  | literal v =>
    exact fun hroom facts => (SameUnlessTooDeep.enter hroom).bind fun _ => .refl _
  | array items ih =>
    intro depth depth' hroom facts
    have hitems : Unhindered limit limit' (depth + 1) (depth' + 1) items :=
      fun e he => ih e he (by omega)
    exact (SameUnlessTooDeep.enter hroom).bind fun _ =>
      (hitems.evalAll facts).bind fun _ => .refl _
  | apply op operands ih =>
    intro depth depth' hroom facts
    have hbelow : limit - (depth + 1 : Nat) ≤ limit' - (depth' + 1 : Nat) := by omega
    have hoperands : Unhindered limit limit' (depth + 1) (depth' + 1) operands :=
      fun e he => ih e he hbelow
    have hsecond : ∀ inner, SameUnlessTooDeep (evalSecond limit operands inner (depth + 1))
        (evalSecond limit' operands inner (depth' + 1)) :=
      fun inner => hoperands.evalSecond hbelow inner
    refine (SameUnlessTooDeep.enter hroom).bind fun _ => ?_
    cases op with
    | fact => exact hoperands.evalFact facts
    | branch => exact hoperands.evalBranch facts
    | allOf => exact (hoperands.evalAllOf facts).bind fun _ => .refl _
    | anyOf => exact (hoperands.evalAnyOf facts).bind fun _ => .refl _
    | someItem =>
      refine (hoperands.evalFirst hbelow facts).bind fun v => ?_
      cases v with
      | list id items => exact (SameUnlessTooDeep.someItem hsecond items).bind fun _ => .refl _
      | _ => exact .refl _
    | everyItem =>
      refine (hoperands.evalFirst hbelow facts).bind fun v => ?_
      cases v with
      | list id items => exact (SameUnlessTooDeep.everyItem hsecond items).bind fun _ => .refl _
      | _ => exact .refl _
    | _ => exact (hoperands.evalAll facts).bind fun _ => .refl _

/-- An expression has one outcome wherever it is not cut off. -/
theorem eval_eq_of_not_tooDeep {e : Expr} {facts : Value} {n : Nat}
    (h : ∀ l, eval limit e facts depth n ≠ .error (.tooDeep l))
    (h' : ∀ l, eval limit' e facts depth' n ≠ .error (.tooDeep l)) :
    eval limit e facts depth n = eval limit' e facts depth' n := by
  rcases Int.le_total (limit - depth) (limit' - depth') with hroom | hroom
  · rcases sameUnlessTooDeep_of_room e hroom facts n with ⟨l, hl⟩ | hsame
    · exact absurd hl (h l)
    · exact hsame.symm
  · rcases sameUnlessTooDeep_of_room e hroom facts n with ⟨l, hl⟩ | hsame
    · exact absurd hl (h' l)
    · exact hsame

/-! ## The height of an expression -/

mutual

/-- How many levels an expression reaches below its own. -/
def height : Expr → Nat
  | literal _ => 0
  | array items => if items.isEmpty then 0 else heightOfAll items + 1
  | apply _ operands => heightOfAll operands + 1
  termination_by structural e => e

/-- The greatest of the heights, zero if there is none. -/
def heightOfAll : List Expr → Nat
  | [] => 0
  | e :: es => max (height e) (heightOfAll es)
  termination_by structural es => es

end

end Expr

/-! ## Whole evaluations -/

end RuleTree
