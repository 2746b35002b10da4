import RuleTree.Log
import RuleTree.Proofs.Outcome
/-!
# Logged computations

A logged computation is taken apart at a bind (`Logged.run_bind`). A pipeline of computations that
report nothing reports nothing (`Logged.mapM_silent`). Most computations have the same outcome
whatever has been reported before (`Logged.Gives`), and then a pipeline of them has the outcome of
the pipeline of their outcomes (`Logged.Gives.bind`, `Logged.Gives.mapM`).
-/

namespace RuleTree.Logged

variable {ε α β : Type}

/-- The second of two computations goes on with the log of the first, which may fail. -/
theorem run_bind (x : Logged ε α) (f : α → Logged ε β) (log : List LogRecord) :
    (x >>= f).run.run log = match x.run.run log with
      | (.ok a, log') => (f a).run.run log'
      | (.error err, log') => (.error err, log') := by
  cases hx : x.run.run log with
  | mk r log' =>
    rw [ExceptT.run_bind, StateT.run_bind, hx]
    cases r <;> rfl

/-- A computation that only reports gives its result. -/
theorem run_lift (x : StateM (List LogRecord) α) (log : List LogRecord) :
    (liftM x : Logged ε α).run.run log = (.ok (x.run log).1, (x.run log).2) :=
  rfl

/-! ## Computations that report nothing -/

theorem silent_bind (x : Except ε α) (f : α → Except ε β) :
    (silent x >>= fun a => silent (f a)) = silent (x >>= f) := by
  cases x <;> rfl

/-- A pipeline of computations that report nothing reports nothing. -/
theorem mapM_silent (f : α → Except ε β) (items : List α) :
    (items.mapM fun a => silent (f a)) = silent (items.mapM f) := by
  induction items with
  | nil => rfl
  | cons a items ih =>
    rw [List.mapM_cons, List.mapM_cons, ih]
    cases f a <;> cases items.mapM f <;> rfl

/-! ## Outcomes whatever is in the log -/

/-- A computation has an outcome, whatever has been reported before. -/
def Gives (x : Logged ε α) (y : Except ε α) : Prop := ∀ log, (x.run.run log).1 = y

namespace Gives

theorem outcome {x : Logged ε α} {y : Except ε α} (h : Gives x y) : x.outcome.1 = y := h []

theorem silent (y : Except ε α) : Gives (Logged.silent y) y := fun _ => rfl

theorem report (level : LogLevel) (text : String) (failure : Option LoadError) :
    Gives (Logged.report level text failure : Logged ε Unit) (.ok ()) := fun _ => rfl

/-- The outcome of two computations is made of their outcomes. -/
theorem bind {x : Logged ε α} {y : Except ε α} {f : α → Logged ε β} {g : α → Except ε β}
    (hx : Gives x y) (hf : ∀ a, Gives (f a) (g a)) : Gives (x >>= f) (y >>= g) := by
  intro log
  rw [run_bind, ← hx log]
  rcases x.run.run log with ⟨a | a, log'⟩
  · rfl
  · exact hf a log'

theorem mapM {f : α → Logged ε β} {g : α → Except ε β} (h : ∀ a, Gives (f a) (g a)) :
    ∀ items : List α, Gives (items.mapM f) (items.mapM g)
  | [] => fun _ => rfl
  | a :: items => by
    rw [List.mapM_cons, List.mapM_cons]
    exact (h a).bind fun b => (mapM h items).bind fun bs => fun _ => rfl

end Gives

end RuleTree.Logged
