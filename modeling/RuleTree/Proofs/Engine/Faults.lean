import RuleTree.Proofs.Expr.Faults
import RuleTree.Proofs.Graph.Readers
import RuleTree.Proofs.Log
/-!
# Runs without faults

The graph of a rule tree is made only if every expression that stands in the tree is scanned to
its end (`Rules.error_scan_of_standsAt`). The rule found at a path is one of these or has
nothing to evaluate, however long the path is and whatever segments the tree does not have
(`Rules.standsAt_of_find`). So a run of an engine has no fault but the depth of a rule
(`Engine.eq_tooDeep_of_run`).
-/

namespace RuleTree

/-! ## Rules found -/

namespace Rules

variable {rules found : Value} {segment : String}

/-- What stands below a child stands below the tree. -/
theorem StandsAt.of_child? {inner e : Value} (hrules : rules.isTerminal = false)
    (hchild : rules.child? segment = .ok (some inner)) {address : Path}
    (h : StandsAt inner address e) : ∃ address', StandsAt rules address' e := by
  cases rules with
  | list id items =>
    obtain ⟨n, -, hget⟩ := Value.child?_list hchild
    exact ⟨toString n :: address, .item hget h⟩
  | map id entries =>
    exact ⟨segment :: address, .entry hrules (Entries.mem_of_get? (Except.ok.inj hchild)) h⟩
  | _ => cases hrules

/-- A descent that does not end goes on below a child, or passes over the segment. -/
theorem of_find_cons {rest : Path} (hrules : rules.isTerminal = false)
    (h : find (segment :: rest) rules = .ok found) :
    found = .null ∨ find rest rules = .ok found ∨
      ∃ inner, rules.child? segment = .ok (some inner) ∧ find rest inner = .ok found := by
  unfold find at h
  rw [if_neg (by simp [hrules])] at h
  split at h
  · exact Or.inl (Except.ok.inj h).symm
  · obtain ⟨child, hchild, h⟩ := exists_of_bind_eq_ok h
    split at h
    · exact Or.inl (Except.ok.inj h).symm
    · exact Or.inr (Or.inr ⟨_, hchild, h⟩)
    · exact Or.inr (Or.inl h)

/-- Whatever the path is, the rule found is an expression that stands in the tree, or it is
terminal and none. -/
theorem standsAt_of_find : ∀ {path : Path} {rules : Value}, find path rules = .ok found →
    (∃ address, StandsAt rules address found) ∨
      found.isTerminal = true ∧ found.isExpression = false := by
  have hhere : ∀ {rules : Value}, rules.isTerminal = true → (∃ address,
      StandsAt rules address rules) ∨ rules.isTerminal = true ∧ rules.isExpression = false := by
    intro rules ht
    cases he : rules.isExpression with
    | true => exact Or.inl ⟨[], .here he⟩
    | false => exact Or.inr ⟨ht, rfl⟩
  intro path
  induction path with
  | nil =>
    intro rules h
    cases ht : rules.isTerminal with
    | true =>
      obtain rfl := Except.ok.inj ((find_of_isTerminal ht []).symm.trans h)
      exact hhere ht
    | false =>
      rw [find, if_neg (by simp [ht])] at h
      obtain rfl := Except.ok.inj h
      exact Or.inr ⟨rfl, rfl⟩
  | cons segment rest ih =>
    intro rules h
    cases ht : rules.isTerminal with
    | true =>
      obtain rfl := Except.ok.inj ((find_of_isTerminal ht (segment :: rest)).symm.trans h)
      exact hhere ht
    | false =>
      rcases of_find_cons ht h with rfl | hpassed | ⟨inner, hchild, hbelow⟩
      · exact Or.inr ⟨rfl, rfl⟩
      · exact ih hpassed
      · refine (ih hbelow).imp_left fun hstands => ?_
        obtain ⟨address, hs⟩ := hstands
        exact hs.of_child? ht hchild

/-! ## What is scanned -/

/-- A terminal rule that is no expression has nothing to scan. -/
theorem error_scan_of_isTerminal {v : Value} (ht : v.isTerminal = true)
    (he : v.isExpression = false) : (Expr.ofValue v).scan.error = none := by
  cases v with
  | list id items =>
    have hitems : ∀ {items : List Value}, (∀ v ∈ items, v.isScalar = true) →
        ∀ e ∈ Expr.ofItems items, e.scan.error = none := by
      intro items h
      induction items with
      | nil => simp [Expr.ofItems]
      | cons v rest ih =>
        intro e hm
        rcases List.mem_cons.mp hm with rfl | hm
        · cases v <;> first | rfl | cases h _ (List.mem_cons_self ..)
        · exact ih (fun v hv => h v (List.mem_cons_of_mem _ hv)) e hm
    have hscalars : ∀ v ∈ items, v.isScalar = true := List.all_eq_true.mp ht
    rw [Expr.ofValue, Expr.scan, Expr.scanAll_of_forall (hitems hscalars)]
  | map id entries => cases he.symm.trans ht
  | _ => rfl

/-- Where edges can be made, every expression is scanned to its end. -/
theorem error_scan_of_standsAt {es : List Edge} (hes : edges rules = .ok es) {address : Path}
    {e : Value} (hs : StandsAt rules address e) : (Expr.ofValue e).scan.error = none := by
  obtain ⟨each, heach, -⟩ := exists_each_of_edges hes
  obtain ⟨own, -, hown⟩ := exists_mem_of_mapM_eq_ok heach (mem_expressions_iff.mpr hs)
  obtain ⟨paths, hpaths, -⟩ := exists_of_bind_eq_ok hown
  exact Expr.error_scan_of_dependencies hpaths

/-- Where edges can be made, every rule found is scanned to its end. -/
theorem error_scan_of_find {es : List Edge} (hes : edges rules = .ok es) {path : Path}
    (h : find path rules = .ok found) : (Expr.ofValue found).scan.error = none := by
  rcases standsAt_of_find h with ⟨address, hs⟩ | ⟨ht, he⟩
  · exact error_scan_of_standsAt hes hs
  · exact error_scan_of_isTerminal ht he

end Rules

/-! ## Runs -/

/-- Whether an expression is at fault. -/
def EngineError.isFault : EngineError → Bool
  | evaluation err => err.isFault
  | _ => false

namespace Engine

open Rules

variable {rules : Value} {settings : Settings} {e : Engine}

/-- The rule at a path is found along its segments. -/
theorem exists_find_of_rule {path rule : Value} (h : e.rule path = .ok rule) :
    ∃ segments, find segments e.rules = .ok rule := by
  obtain ⟨segments, -, h⟩ := exists_of_bind_eq_ok h
  exact ⟨segments, of_mapError_eq_ok h⟩

/-- A rule that is not found is no fault of an expression. -/
theorem isFault_of_rule {path : Value} {err : EngineError} (h : e.rule path = .error err) :
    err.isFault = false := by
  rcases of_bind_eq_error h with hpath | ⟨segments, -, hfind⟩
  · obtain ⟨reason, -, rfl⟩ := exists_of_mapError_eq_error hpath
    cases reason <;> rfl
  · obtain ⟨_, -, rfl⟩ := exists_of_mapError_eq_error hfind
    rfl

/-- The facts of a run: those that are given, and the snapshot otherwise. -/
def resolved (e : Engine) (facts : Value) : Value := if facts.isNull then e.facts else facts

/-- The rule at a path on the facts that are given or the snapshot. -/
def answer (e : Engine) (path facts : Value) : Except EngineError Value := do
  let rule ← e.rule path
  (evaluate rule (e.resolved facts) e.settings.depthLimit).mapError .evaluation

/-- A run has the same outcome whether it reports that there are no facts or not. -/
theorem gives_run (e : Engine) (path facts : Value) :
    (e.run path facts).Gives (e.answer path facts) := by
  refine (Logged.Gives.silent _).bind fun rule => ?_
  rw [resolved]
  dsimp only
  generalize (if facts.isNull then e.facts else facts) = given
  split
  · exact (Logged.Gives.report _ _ _).bind fun _ => .silent _
  · exact .silent _

/-- A run that fails has found no rule, or its evaluation fails. -/
theorem of_run_eq_error {path facts : Value} {err : EngineError}
    (h : (e.run path facts).outcome.1 = .error err) : e.rule path = .error err ∨
      ∃ rule facts err', e.rule path = .ok rule ∧
        evaluate rule facts e.settings.depthLimit = .error err' ∧ err = .evaluation err' := by
  rw [(e.gives_run path facts).outcome] at h
  rcases of_bind_eq_error h with hrule | ⟨rule, hrule, heval⟩
  · exact Or.inl hrule
  · obtain ⟨err', herr, rfl⟩ := exists_of_mapError_eq_error heval
    exact Or.inr ⟨rule, _, err', hrule, herr, rfl⟩

/-- A run of an engine that could be made has no fault but the depth of a rule, whatever the
path, the facts and the snapshot are. -/
theorem eq_tooDeep_of_run (he : ofRules rules settings = .ok e) {snapshot path facts : Value}
    {err : EngineError} (h : ((e.useFacts snapshot).run path facts).outcome.1 = .error err)
    (hfault : err.isFault = true) : err = .evaluation (.tooDeep settings.depthLimit) := by
  obtain ⟨hrules, hsettings, hg⟩ := ofRules_eq_ok he
  obtain ⟨es, hes, -⟩ := exists_of_bind_eq_ok hg
  rcases of_run_eq_error h with hrule | ⟨rule, facts, err, hrule, heval, rfl⟩
  · exact absurd ((isFault_of_rule hrule).symm.trans hfault) Bool.false_ne_true
  · obtain ⟨segments, hfind⟩ := exists_find_of_rule hrule
    have hscan := error_scan_of_find hes (hrules ▸ hfind)
    rw [eq_tooDeep_of_evaluate hscan heval hfault, ← hsettings]
    rfl

/-- A rule in a group that adds up a sum. -/
def nestedSums : Value := .ofEntries [("taxes", .ofEntries [("city", .ofEntries [("+", .ofList [
  .ofEntries [("+", .ofList [.ofEntries [("var", .str "base")], .int 1])], .int 2])])])]

/-- The path goes on below the rule, and has a segment on the way that the tree does not have. -/
theorem eq_tooDeep_of_nestedSums : ∃ e err,
    ofRules nestedSums { Settings.standard with depthLimit := 1 } = .ok e ∧
    ((e.useFacts .null).run (.str "taxes.none.city.sum")
      (.ofEntries [("base", .int 5)])).outcome.1 = .error err ∧
    err.isFault = true ∧ err = .evaluation (.tooDeep 1) := by
  obtain ⟨e, he⟩ : ∃ e, ofRules nestedSums { Settings.standard with depthLimit := 1 } = .ok e :=
    ⟨_, rfl⟩
  obtain ⟨err, herr, hfault⟩ : ∃ err, ((e.useFacts .null).run (.str "taxes.none.city.sum")
      (.ofEntries [("base", .int 5)])).outcome.1 = .error err ∧ err.isFault = true := by
    obtain rfl := Except.ok.inj he
    exact ⟨_, rfl, rfl⟩
  exact ⟨e, err, he, herr, hfault, eq_tooDeep_of_run he herr hfault⟩

end Engine

end RuleTree
