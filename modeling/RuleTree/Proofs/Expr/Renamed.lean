import RuleTree.Proofs.Value.Renamed
import RuleTree.Proofs.Expr.Applied
import RuleTree.Proofs.Expr.Totality
/-!
# Evaluation on facts with other containers

An evaluation numbers the containers that it makes from one on. A renaming that leaves these alone
and keeps different containers apart (`Value.Faithful`) changes nothing of an evaluation but the
containers in its result, if it leaves the literals of the expression alone (`Expr.follows_eval`).
So a rule has the same outcome on facts with other containers, apart from the containers
(`evaluate_renamed`).
-/

namespace RuleTree

/-- A renaming keeps different containers apart and leaves those alone that evaluations make. -/
structure Value.Faithful (σ : Ident → Ident) : Prop where
  injective : σ.Injective
  made : ∀ n, 0 < n → σ (.made n) = .made n

namespace Eval

variable {α β γ δ : Type} {f : α → β} {g : γ → δ} {σ : Ident → Ident}

/-- The second computation fails like the first one, or it has the result of the first one under a
function. -/
def Follows (f : α → β) (x : Eval α) (y : Eval β) : Prop :=
  ∀ n, 0 < n → (∃ err, x n = .error err ∧ y n = .error err) ∨
    ∃ a m, 0 < m ∧ x n = .ok (a, m) ∧ y n = .ok (f a, m)

namespace Follows

/-! ## Steps -/

theorem pure (a : α) : Follows f (Pure.pure a) (Pure.pure (f a)) :=
  fun n hn => Or.inr ⟨a, n, hn, rfl, rfl⟩

theorem fixed {v : Value} (h : v.renamed σ = v) :
    Follows (Value.renamed σ) (Pure.pure v) (Pure.pure v) :=
  fun n hn => Or.inr ⟨v, n, hn, rfl, by rw [h]; rfl⟩

theorem throw (err : EvalError) :
    Follows f (MonadExcept.throw err : Eval α) (MonadExcept.throw err : Eval β) :=
  fun _ _ => Or.inl ⟨err, rfl, rfl⟩

/-- Computations that follow each other step by step do so one after the other. -/
theorem bind {x : Eval α} {y : Eval β} {k : α → Eval γ} {k' : β → Eval δ} (hx : Follows f x y)
    (hk : ∀ a, Follows g (k a) (k' (f a))) : Follows g (x >>= k) (y >>= k') := by
  intro n hn
  have hbind : ∀ {α' β' : Type} (z : Eval α') (h : α' → Eval β'),
      (z >>= h) n = (z n >>= fun p => h p.1 p.2) := fun _ _ => rfl
  rw [hbind, hbind]
  rcases hx n hn with ⟨err, hx, hy⟩ | ⟨a, m, hm, hx, hy⟩
  · rw [hx, hy]
    exact Or.inl ⟨err, rfl, rfl⟩
  · rw [hx, hy]
    exact hk a m hm

/-- An outcome of something else than an evaluation. -/
theorem lift (x : Except EvalError α) :
    Follows f (liftM x : Eval α) (liftM (x.map f) : Eval β) := by
  cases x with
  | ok a => exact pure a
  | error err => exact throw err

theorem enter (limit : Int) (depth : Nat) :
    Follows id (Eval.enter limit depth) (Eval.enter limit depth) := by
  unfold Eval.enter
  split
  · exact throw _
  · exact pure ()

theorem newIdent (hσ : Value.Faithful σ) : Follows σ Eval.newIdent Eval.newIdent := by
  intro n hn
  refine Or.inr ⟨.made n, n + 1, n.succ_pos, rfl, ?_⟩
  rw [hσ.made n hn]
  rfl

/-! ## Loops -/

/-- Binding an item goes along with a renaming. -/
theorem bindItem (hσ : Value.Faithful σ) (facts item : Value) :
    Follows (Value.renamed σ) (Eval.bindItem facts item)
      (Eval.bindItem (facts.renamed σ) (item.renamed σ)) := by
  cases facts with
  | map id entries =>
    rw [Value.renamed_map, Eval.bindItem, Eval.bindItem]
    refine (newIdent hσ).bind fun k => ?_
    rw [Value.put_renamed, ← Value.renamed_map]
    exact pure _
  | _ => exact throw _

variable {test test' : Value → Eval Value}

/-- A search for an item goes along with a renaming if the tests do. -/
theorem someItem (hσ : Value.Faithful σ) (facts : Value)
    (h : ∀ inner, Follows (Value.renamed σ) (test inner) (test' (inner.renamed σ))) :
    ∀ items, Follows id (Eval.someItem facts test items)
      (Eval.someItem (facts.renamed σ) test' (items.map (Value.renamed σ))) := by
  intro items
  induction items with
  | nil => exact pure false
  | cons item rest ih =>
    rw [List.map_cons, Eval.someItem, Eval.someItem]
    refine (bindItem hσ facts item).bind fun inner => (h inner).bind fun v => ?_
    rw [v.isTruthy_renamed]
    split
    · exact pure true
    · exact ih

/-- A check of all items goes along with a renaming if the tests do. -/
theorem everyItem (hσ : Value.Faithful σ) (facts : Value)
    (h : ∀ inner, Follows (Value.renamed σ) (test inner) (test' (inner.renamed σ))) :
    ∀ items, Follows id (Eval.everyItem facts test items)
      (Eval.everyItem (facts.renamed σ) test' (items.map (Value.renamed σ))) := by
  intro items
  induction items with
  | nil => exact pure true
  | cons item rest ih =>
    rw [List.map_cons, Eval.everyItem, Eval.everyItem]
    refine (bindItem hσ facts item).bind fun inner => (h inner).bind fun v => ?_
    rw [v.isTruthy_renamed]
    split
    · exact ih
    · exact pure false

end Follows

end Eval

namespace Value

/-- A fact asked for by its written path. -/
theorem follows_factAtText (σ : Ident → Ident) (text : String) (facts : Value) :
    Eval.Follows (renamed σ) (facts.factAtText text) ((facts.renamed σ).factAtText text) := by
  have hfact : EvalError.ofIndex (factAt (Path.ofText text) (facts.renamed σ)) =
      (EvalError.ofIndex (factAt (Path.ofText text) facts)).map (renamed σ) := by
    rw [factAt_renamed]
    cases factAt (Path.ofText text) facts <;> rfl
  rw [factAtText, factAtText, hfact]
  exact .lift _

/-- A fact asked for by the path that a value is written as. -/
theorem follows_factAtValue (σ : Ident → Ident) (path facts : Value) :
    Eval.Follows (renamed σ) (facts.factAtValue path)
      ((facts.renamed σ).factAtValue (path.renamed σ)) := by
  rw [factAtValue, factAtValue, path.isWritable_renamed, path.written_renamed]
  split
  · exact follows_factAtText σ _ facts
  · exact .throw _

end Value

namespace Expr

open Eval

variable {σ : Ident → Ident} {limit : Int} {es : List Expr}

/-! ## Operands -/

/-- An expression is evaluated alike on facts with other containers. -/
def Equivariant (limit : Int) (σ : Ident → Ident) (e : Expr) : Prop :=
  ∀ facts depth, Follows (Value.renamed σ) (eval limit e facts depth)
    (eval limit e (facts.renamed σ) depth)

section Operands

variable (facts : Value) (depth : Nat)

theorem follows_evalAll : ∀ {es : List Expr}, (∀ e ∈ es, Equivariant limit σ e) →
    Follows (List.map (Value.renamed σ)) (evalAll limit es facts depth)
      (evalAll limit es (facts.renamed σ) depth)
  | [], _ => .pure []
  | e :: es, h => by
    obtain ⟨he, hes⟩ := List.forall_mem_cons.mp h
    exact (he facts depth).bind fun v => (follows_evalAll hes).bind fun vs => .pure (v :: vs)

theorem follows_evalFirst (h : ∀ e ∈ es, Equivariant limit σ e) :
    Follows (Value.renamed σ) (evalFirst limit es facts depth)
      (evalFirst limit es (facts.renamed σ) depth) := by
  cases es with
  | nil => exact (Follows.enter limit depth).bind fun _ => .fixed rfl
  | cons e es => exact h e (List.mem_cons_self ..) facts depth

theorem follows_evalSecond (h : ∀ e ∈ es, Equivariant limit σ e) :
    Follows (Value.renamed σ) (evalSecond limit es facts depth)
      (evalSecond limit es (facts.renamed σ) depth) := by
  match es, h with
  | [], _ | [_], _ => exact (Follows.enter limit depth).bind fun _ => .fixed rfl
  | _ :: e :: _, h => exact h e (by simp) facts depth

theorem follows_evalBranch : ∀ {es : List Expr}, (∀ e ∈ es, Equivariant limit σ e) →
    Follows (Value.renamed σ) (evalBranch limit es facts depth)
      (evalBranch limit es (facts.renamed σ) depth)
  | [], _ => .fixed rfl
  | [e], h => h e (List.mem_cons_self ..) facts depth
  | condition :: result :: rest, h => by
    rw [evalBranch, evalBranch]
    refine (h condition (by simp) facts depth).bind fun v => ?_
    rw [v.isTruthy_renamed]
    split
    · exact h result (by simp) facts depth
    · exact follows_evalBranch fun e he => h e (by simp [he])

theorem follows_evalAllOf : ∀ {es : List Expr}, (∀ e ∈ es, Equivariant limit σ e) →
    Follows id (evalAllOf limit es facts depth) (evalAllOf limit es (facts.renamed σ) depth)
  | [], _ => .pure true
  | e :: es, h => by
    obtain ⟨he, hes⟩ := List.forall_mem_cons.mp h
    rw [evalAllOf, evalAllOf]
    refine (he facts depth).bind fun v => ?_
    rw [v.isTruthy_renamed]
    split
    · exact follows_evalAllOf hes
    · exact .pure false

theorem follows_evalAnyOf : ∀ {es : List Expr}, (∀ e ∈ es, Equivariant limit σ e) →
    Follows id (evalAnyOf limit es facts depth) (evalAnyOf limit es (facts.renamed σ) depth)
  | [], _ => .pure false
  | e :: es, h => by
    obtain ⟨he, hes⟩ := List.forall_mem_cons.mp h
    rw [evalAnyOf, evalAnyOf]
    refine (he facts depth).bind fun v => ?_
    rw [v.isTruthy_renamed]
    split
    · exact .pure true
    · exact follows_evalAnyOf hes

/-- A look-up goes along with a renaming, its path and its standard value included. -/
theorem follows_evalFact (h : ∀ e ∈ es, Equivariant limit σ e) :
    Follows (Value.renamed σ) (evalFact limit es facts depth)
      (evalFact limit es (facts.renamed σ) depth) := by
  match es, h with
  | [], _ => exact .throw _
  | e :: rest, h =>
    have hcomputed : Follows (Value.renamed σ)
        (eval limit e facts depth >>= fun path => facts.factAtValue path)
        (eval limit e (facts.renamed σ) depth >>= fun path => (facts.renamed σ).factAtValue path) :=
      (h e (List.mem_cons_self ..) facts depth).bind fun path =>
        Value.follows_factAtValue σ path facts
    cases e with
    | literal v =>
      cases v with
      | str path => exact Value.follows_factAtText σ path facts
      | _ => exact hcomputed
    | _ => exact hcomputed

end Operands

/-! ## Evaluation -/

/-- A strict operator does the same with operands that have other containers. -/
theorem follows_applyTo (hσ : σ.Injective) (op : Operator) (vs : List Value) :
    Follows (Value.renamed σ) (liftM (EvalError.ofOverflow (op.applyTo vs)) : Eval Value)
      (liftM (EvalError.ofOverflow (op.applyTo (vs.map (Value.renamed σ)))) : Eval Value) := by
  have happly : EvalError.ofOverflow (op.applyTo (vs.map (Value.renamed σ))) =
      (EvalError.ofOverflow (op.applyTo vs)).map (Value.renamed σ) := by
    rw [Operator.applyTo_renamed hσ]
    cases op.applyTo vs <;> rfl
  rw [happly]
  exact .lift _

/-- With other containers in the facts an expression is evaluated in the same way, as long as those
in its literals stay. -/
theorem follows_eval (hσ : Value.Faithful σ) (e : Expr)
    (h : ∀ v ∈ e.literals, v.renamed σ = v) : Equivariant limit σ e := by
  induction e using Expr.induction with
  | literal v =>
    intro facts depth
    exact (Follows.enter limit depth).bind fun _ => .fixed (h v (List.mem_singleton_self v))
  | array items ih =>
    intro facts depth
    have hitems : ∀ e ∈ items, Equivariant limit σ e := by
      refine fun e he => ih e he fun v hv => h v ?_
      rw [literals, literalsOfAll_eq]
      exact List.mem_flatMap.mpr ⟨e, he, hv⟩
    refine (Follows.enter limit depth).bind fun _ =>
      (follows_evalAll facts (depth + 1) hitems).bind fun vs =>
        (Follows.newIdent hσ).bind fun k => ?_
    exact Value.renamed_list k vs ▸ .pure _
  | apply op operands ih =>
    intro facts depth
    have hoperands : ∀ e ∈ operands, Equivariant limit σ e := by
      refine fun e he => ih e he fun v hv => h v ?_
      rw [literals, literalsOfAll_eq]
      exact List.mem_flatMap.mpr ⟨e, he, hv⟩
    have hsecond : ∀ inner, Follows (Value.renamed σ) (evalSecond limit operands inner (depth + 1))
        (evalSecond limit operands (inner.renamed σ) (depth + 1)) :=
      fun inner => follows_evalSecond inner (depth + 1) hoperands
    refine (Follows.enter limit depth).bind fun _ => ?_
    cases op with
    | fact => exact follows_evalFact facts (depth + 1) hoperands
    | branch => exact follows_evalBranch facts (depth + 1) hoperands
    | allOf => exact (follows_evalAllOf facts (depth + 1) hoperands).bind fun b => .fixed rfl
    | anyOf => exact (follows_evalAnyOf facts (depth + 1) hoperands).bind fun b => .fixed rfl
    | someItem =>
      refine (follows_evalFirst facts (depth + 1) hoperands).bind fun v => ?_
      cases v with
      | list id items =>
        rw [Value.renamed_list]
        exact (Follows.someItem hσ facts hsecond items).bind fun b => .fixed rfl
      | _ => exact .fixed rfl
    | everyItem =>
      refine (follows_evalFirst facts (depth + 1) hoperands).bind fun v => ?_
      cases v with
      | list id items =>
        rw [Value.renamed_list]
        exact (Follows.everyItem hσ facts hsecond items).bind fun b => .fixed rfl
      | _ => exact .fixed rfl
    | _ => exact (follows_evalAll facts (depth + 1) hoperands).bind (follows_applyTo hσ.injective _)

/-! ## Literals -/

/-- A map is a literal, or its only entry has the operands. -/
theorem literals_ofValue_map (id : Ident) (entries : List (String × Value)) :
    (ofValue (.map id entries)).literals = [.map id entries] ∨
      ∃ e ∈ entries, (ofValue (.map id entries)).literals = (ofValue e.2).literals := by
  match entries with
  | [] => exact Or.inl rfl
  | _ :: _ :: _ => exact Or.inl (by simp only [ofValue, literals])
  | [(key, operand)] =>
    cases hop : Operator.ofSymbol? key with
    | none =>
      refine Or.inl ?_
      cases operand <;> simp only [ofValue, hop, literals]
    | some op =>
      refine Or.inr ⟨(key, operand), List.mem_singleton_self _, ?_⟩
      cases operand <;>
        simp only [ofValue, hop, literals, literalsOfAll, List.append_nil]

/-- The literals of an expression have no other containers than the value it is read from. -/
theorem idents_subset_of_mem_literals {v w : Value} (h : w ∈ (ofValue v).literals) :
    w.idents ⊆ v.idents := by
  induction v using Value.induction with
  | scalar v hs =>
    cases v with
    | list | map => cases hs
    | _ => rw [List.mem_singleton.mp h]; exact List.Subset.refl _
  | list id items ih =>
    rw [ofValue, literals, literalsOfAll_eq, ofItems_eq_map, List.flatMap_map] at h
    obtain ⟨v, hv, hw⟩ := List.mem_flatMap.mp h
    exact List.Subset.trans (ih v hv hw) (Value.idents_subset_of_mem_children hv)
  | map id entries ih =>
    rcases literals_ofValue_map id entries with hliteral | ⟨e, he, hbelow⟩
    · rw [hliteral] at h
      rw [List.mem_singleton.mp h]
      exact List.Subset.refl _
    · refine List.Subset.trans (ih e.1 e.2 he (hbelow ▸ h))
        (Value.idents_subset_of_mem_children ?_)
      exact List.mem_map_of_mem he

end Expr

/-- A rule has the same outcome on facts with other containers, apart from the containers. -/
theorem evaluate_renamed {σ : Ident → Ident} (hσ : Value.Faithful σ) {logic facts : Value}
    (hlogic : ∀ i ∈ logic.idents, σ i = i) (hfacts : facts.isNull = false) (limit : Int) :
    evaluate logic (facts.renamed σ) limit =
      (evaluate logic facts limit).map (Value.renamed σ) := by
  have hliterals : ∀ v ∈ (Expr.ofValue logic).literals, v.renamed σ = v := fun v hv =>
    v.renamed_eq_self fun i hi => hlogic i (Expr.idents_subset_of_mem_literals hv hi)
  have horEmpty : (facts.renamed σ).orEmpty = facts.orEmpty.renamed σ := by
    rw [Value.orEmpty, Value.orEmpty, facts.isNull_renamed, hfacts]
    rfl
  have hrun : Expr.Equivariant limit σ (Expr.ofValue logic) := Expr.follows_eval hσ _ hliterals
  rw [evaluate_eq, evaluate_eq, horEmpty]
  rcases hrun facts.orEmpty 0 1 Nat.one_pos with ⟨err, hx, hy⟩ | ⟨v, m, -, hx, hy⟩
  · rw [hx, hy]
    rfl
  · rw [hx, hy]
    rfl

end RuleTree
