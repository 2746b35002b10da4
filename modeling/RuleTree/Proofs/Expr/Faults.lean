import RuleTree.Proofs.Expr.Scan
import RuleTree.Proofs.Expr.Endings
/-!
# Faults of an expression

A scan goes into every operand that an evaluation can come to; of a fact's operands both look
at the first one only. So an expression that is scanned to its end has no fault but its depth,
whatever the facts are (`Expr.onlyTooDeep_eval`) : that is one of the ways in which a computation
can end (`Eval.onlyTooDeep_iff_ends`).
-/

namespace RuleTree

namespace Eval

/-! ## Computations without faults -/

/-- The only fault that a computation fails with is that expressions nest too deep. -/
def OnlyTooDeep {α : Type} (limit : Int) (x : Eval α) : Prop :=
  ∀ n err, x n = .error err → err.isFault = true → err = .tooDeep limit

theorem onlyTooDeep_iff_ends {α : Type} {limit : Int} {x : Eval α} : OnlyTooDeep limit x ↔
    Ends (fun _ => True) (fun err => err.isFault = true → err = .tooDeep limit) x :=
  ⟨fun h => ⟨fun _ _ _ _ => trivial, h⟩, fun h => h.of_error⟩

end Eval

/-! ## Scans that end without an error -/

namespace Expr

open Eval

/-- Two scans, one after the other, fail nowhere exactly if neither fails. -/
theorem error_append_eq_none {first second : Scan} (h : (first ++ second).error = none) :
    first.error = none ∧ second.error = none := by
  cases hf : first.error with
  | some err =>
    have happend : first ++ second = first := by
      show Scan.append first second = first
      rw [Scan.append, hf]
    rw [happend, hf] at h
    cases h
  | none =>
    have happend : first ++ second = ⟨first.paths ++ second.paths, second.error⟩ := by
      show Scan.append first second = _
      rw [Scan.append, hf]
    rw [happend] at h
    exact ⟨rfl, h⟩

/-- Expressions that are scanned to their ends together are so one by one. -/
theorem error_scan_of_mem {es : List Expr} (h : (scanAll es).error = none) :
    ∀ e ∈ es, e.scan.error = none := by
  induction es with
  | nil => simp
  | cons first rest ih =>
    rw [scanAll] at h
    obtain ⟨hfirst, hrest⟩ := error_append_eq_none h
    intro e he
    rcases List.mem_cons.mp he with rfl | he
    · exact hfirst
    · exact ih hrest e he

/-- A fact is scanned to its end if it has a path that is. -/
theorem error_scan_of_error_scanFact {es : List Expr} (h : (scanFact es).error = none) :
    es ≠ [] ∧ ∀ e, es.head? = some e → e.scan.error = none := by
  cases es with
  | nil => cases h
  | cons e rest =>
    refine ⟨List.cons_ne_nil _ _, fun first hfirst => ?_⟩
    obtain rfl := Option.some.inj hfirst
    cases e with
    | literal v => rfl
    | _ => exact h

/-! ## Evaluation -/

variable {limit : Int}

/-- An expression that is scanned to its end has no fault but its depth. -/
theorem onlyTooDeep_eval (e : Expr) (he : e.scan.error = none) :
    ∀ facts depth, OnlyTooDeep limit (eval limit e facts depth) := by
  have hplain : ∀ err : EvalError, err.isFault = false →
      err.isFault = true → err = .tooDeep limit :=
    fun err h hfault => absurd (h.symm.trans hfault) Bool.false_ne_true
  simp only [onlyTooDeep_iff_ends]
  induction e using Expr.induction with
  | literal v => exact fun facts depth => (Ends.enter fun _ _ => rfl).bind fun _ _ => .pure trivial
  | array items ih =>
    intro facts depth
    exact ends_array (fun _ _ => rfl) fun e hm => ih e hm (error_scan_of_mem he e hm) facts _
  | apply op operands ih =>
    intro facts depth
    by_cases hop : op = .fact
    · subst hop
      obtain ⟨hne, hfirst⟩ := error_scan_of_error_scanFact he
      refine ends_fact (fun _ _ => rfl) (fun hnil => absurd hnil hne) (hplain _ rfl) fun e hm => ?_
      exact ih e (List.mem_of_mem_head? hm) (hfirst e hm) facts _
    · rw [scan_apply hop] at he
      exact ends_apply hop (fun _ _ _ _ => rfl) hplain fun inner e hm =>
        ih e hm (error_scan_of_mem he e hm) inner _

/-- An expression that has dependencies is scanned to its end. -/
theorem error_scan_of_dependencies {e : Expr} {paths : List String}
    (h : e.dependencies = .ok paths) : e.scan.error = none := by
  unfold dependencies at h
  split at h
  · cases h
  · next hs => rw [hs]

end Expr

/-- A value that is scanned to its end has no fault but its depth. -/
theorem eq_tooDeep_of_evaluate {logic facts : Value} {limit : Int}
    (hlogic : (Expr.ofValue logic).scan.error = none) {err : EvalError}
    (h : evaluate logic facts limit = .error err) (hfault : err.isFault = true) :
    err = .tooDeep limit := by
  rcases of_bind_eq_error h with heval | ⟨r, -, hr⟩
  · exact Expr.onlyTooDeep_eval _ hlogic _ _ _ err heval hfault
  · cases hr

end RuleTree
