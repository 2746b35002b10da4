import RuleTree.Expr.Dependencies
/-!
# What a scan finds

`Expr.asksBy` tells whether every fact that a scan meets is asked for by a literal that
passes a test. Such an expression is scanned to its end (`Expr.error_scan_of_asksBy`), a
scan that does not end early finds what the scans of the operands find
(`Expr.scanAll_of_forall`), and the dependencies are the paths found without the item of
a loop (`Expr.mem_dependencies_iff`).
-/

namespace RuleTree

namespace Expr

/-- Induction over an expression, with the hypothesis for every item and operand. -/
@[elab_as_elim]
theorem induction {motive : Expr → Prop} (literal : ∀ v, motive (.literal v))
    (array : ∀ items, (∀ e ∈ items, motive e) → motive (.array items))
    (apply : ∀ op operands, (∀ e ∈ operands, motive e) → motive (.apply op operands))
    (e : Expr) : motive e := by
  refine Expr.rec (motive_1 := motive) (motive_2 := fun es => ∀ e ∈ es, motive e)
    literal array apply ?_ ?_ e
  · intro e he
    cases he
  · intro first rest hfirst hrest e he
    rcases List.mem_cons.mp he with rfl | he
    · exact hfirst
    · exact hrest e he

/-! ## Facts asked for by literals -/

mutual

/-- Whether every fact that a scan meets is asked for by a literal that passes a test. -/
def asksBy (test : Value → Bool) : Expr → Bool
  | literal _ => true
  | array items => asksByAll test items
  | apply .fact operands => asksByFirst test operands
  | apply _ operands => asksByAll test operands
  termination_by structural e => e

/-- Whether this holds of all expressions. -/
def asksByAll (test : Value → Bool) : List Expr → Bool
  | [] => true
  | e :: es => asksBy test e && asksByAll test es
  termination_by structural es => es

/-- Whether the first expression is a literal that passes a test. -/
def asksByFirst (test : Value → Bool) : List Expr → Bool
  | literal v :: _ => test v
  | _ => false

end

variable {test : Value → Bool}

theorem asksByAll_iff {es : List Expr} :
    asksByAll test es = true ↔ ∀ e ∈ es, e.asksBy test = true := by
  induction es with
  | nil => simp [asksByAll]
  | cons e es ih => simp [asksByAll, ih]

theorem exists_literal_of_asksByFirst {es : List Expr} (h : asksByFirst test es = true) :
    ∃ v rest, es = literal v :: rest ∧ test v = true := by
  match es, h with
  | literal v :: rest, h => exact ⟨v, rest, rfl, by simpa [asksByFirst] using h⟩

theorem asksBy_apply {op : Operator} (h : op ≠ .fact) (operands : List Expr) :
    (apply op operands).asksBy test = asksByAll test operands := by
  cases op <;> first | rfl | exact absurd rfl h

/-! ## Scans -/

theorem scan_apply {op : Operator} (h : op ≠ .fact) (operands : List Expr) :
    (apply op operands).scan = scanAll operands := by
  cases op <;> first | rfl | exact absurd rfl h

/-- Expressions that are scanned to their ends give their paths one after the other. -/
theorem scanAll_of_forall {es : List Expr} (h : ∀ e ∈ es, e.scan.error = none) :
    scanAll es = ⟨es.flatMap fun e => e.scan.paths, none⟩ := by
  induction es with
  | nil => rfl
  | cons e es ih =>
    have he := h e (by simp)
    rw [scanAll, ih fun e he => h e (by simp [he])]
    show Scan.append _ _ = _
    rw [Scan.append, he]
    simp

theorem paths_scan_subset {es : List Expr} (h : ∀ e ∈ es, e.scan.error = none) {e : Expr}
    (he : e ∈ es) : e.scan.paths ⊆ (scanAll es).paths := by
  rw [scanAll_of_forall h]
  exact fun p hp => List.mem_flatMap.mpr ⟨e, he, hp⟩

/-- A scan that meets only facts asked for by literals does not end early. -/
theorem error_scan_of_asksBy (e : Expr) (h : e.asksBy test = true) : e.scan.error = none := by
  induction e using Expr.induction with
  | literal v => rfl
  | array items ih =>
    have hall := asksByAll_iff.mp h
    rw [scan, scanAll_of_forall fun e he => ih e he (hall e he)]
  | apply op operands ih =>
    by_cases hop : op = .fact
    · subst hop
      obtain ⟨v, rest, rfl, -⟩ := exists_literal_of_asksByFirst h
      cases v <;> rfl
    · rw [asksBy_apply hop] at h
      have hall := asksByAll_iff.mp h
      rw [scan_apply hop, scanAll_of_forall fun e he => ih e he (hall e he)]

/-- The paths that a scan finds are the texts of literals that pass the test. -/
theorem test_of_mem_scan (e : Expr) (h : e.asksBy test = true) :
    ∀ p ∈ e.scan.paths, test (.str p) = true := by
  have hall : ∀ {es : List Expr}, asksByAll test es = true →
      (∀ e ∈ es, e.asksBy test = true → ∀ p ∈ e.scan.paths, test (.str p) = true) →
        ∀ p ∈ (scanAll es).paths, test (.str p) = true := by
    intro es hes ih p hp
    rw [asksByAll_iff] at hes
    rw [scanAll_of_forall fun e he => error_scan_of_asksBy e (hes e he)] at hp
    obtain ⟨e, he, hp⟩ := List.mem_flatMap.mp hp
    exact ih e he (hes e he) p hp
  induction e using Expr.induction with
  | literal v => exact fun p hp => absurd hp List.not_mem_nil
  | array items ih => exact hall h ih
  | apply op operands ih =>
    by_cases hop : op = .fact
    · subst hop
      obtain ⟨v, rest, rfl, hv⟩ := exists_literal_of_asksByFirst h
      cases v with
      | str q =>
        intro p hp
        obtain rfl := List.mem_singleton.mp hp
        exact hv
      | _ => exact fun p hp => absurd hp List.not_mem_nil
    · rw [asksBy_apply hop] at h
      rw [scan_apply hop]
      exact hall h ih

/-- A scan ends early only at a fact without a path. -/
theorem eq_missingPath_of_error_scan (e : Expr) :
    ∀ err, e.scan.error = some err → err = .missingPath := by
  have hall : ∀ {es : List Expr}, (∀ e ∈ es, ∀ err, e.scan.error = some err → err = .missingPath) →
      ∀ err, (scanAll es).error = some err → err = .missingPath := by
    intro es
    induction es with
    | nil => exact fun _ err h => nomatch h
    | cons first rest ih =>
      intro hes err h
      have happend : (scanAll (first :: rest)).error =
          (Scan.append first.scan (scanAll rest)).error := rfl
      rw [happend, Scan.append] at h
      split at h
      · exact hes first (by simp) err h
      · exact ih (fun e he => hes e (List.mem_cons_of_mem _ he)) err h
  induction e using Expr.induction with
  | literal v => exact fun err h => nomatch h
  | array items ih => exact hall ih
  | apply op operands ih =>
    by_cases hop : op = .fact
    · subst hop
      match operands, ih with
      | [], _ => exact fun err h => (Option.some.inj h).symm
      | first :: _, ih =>
        have hfirst := ih first (by simp)
        cases first with
        | literal v => cases v <;> exact fun err h => nomatch h
        | array => exact hfirst
        | apply => exact hfirst
    · rw [scan_apply hop]
      exact hall ih

/-! ## Dependencies -/

/-- The paths that are kept are those that are not met before, apart from the one of the item of a
loop. -/
theorem mem_firsts_iff {p : String} : ∀ {ps met : List String},
    p ∈ firsts met ps ↔ p ∈ ps ∧ p ≠ loopKey ∧ p ∉ met
  | [], met => by simp [firsts]
  | q :: ps, met => by
    by_cases hq : q = loopKey ∨ q ∈ met
    · rw [firsts, if_pos hq, mem_firsts_iff]
      constructor
      · rintro ⟨hp, hne, hmet⟩
        exact ⟨List.mem_cons_of_mem _ hp, hne, hmet⟩
      · rintro ⟨hp, hne, hmet⟩
        rcases List.mem_cons.mp hp with rfl | hp
        · exact (hq.elim hne hmet).elim
        · exact ⟨hp, hne, hmet⟩
    · rw [firsts, if_neg hq, List.mem_cons, mem_firsts_iff]
      rw [not_or] at hq
      by_cases hpq : p = q
      · subst hpq
        simp [hq]
      · simp [hpq]

/-- The dependencies of an expression are the paths that its scan finds, without the item
of a loop. -/
theorem mem_dependencies_iff {e : Expr} {paths : List String} (h : e.dependencies = .ok paths)
    {p : String} : p ∈ paths ↔ p ∈ e.scan.paths ∧ p ≠ loopKey := by
  unfold dependencies at h
  split at h
  · cases h
  · next ps hs =>
    obtain rfl := Except.ok.inj h
    simp [mem_firsts_iff, hs]

/-- An expression whose facts are asked for by literals has dependencies. -/
theorem exists_dependencies_of_asksBy {e : Expr} (h : e.asksBy test = true) :
    ∃ paths, e.dependencies = .ok paths := by
  have herror := error_scan_of_asksBy e h
  unfold dependencies
  split
  · next hs => rw [hs] at herror; cases herror
  · exact ⟨_, rfl⟩

/-- Dependencies cannot be listed only if a fact has no path. -/
theorem dependencies_eq_ok_or (e : Expr) :
    (∃ paths, e.dependencies = .ok paths) ∨ e.dependencies = .error .missingPath := by
  rw [dependencies]
  split
  · next err hscan =>
    have herr := eq_missingPath_of_error_scan e err (by rw [hscan])
    exact Or.inr (congrArg _ herr)
  · exact Or.inl ⟨_, rfl⟩

end Expr

end RuleTree
