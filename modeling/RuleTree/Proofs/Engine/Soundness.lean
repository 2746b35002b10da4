import RuleTree.Proofs.Expr.Noninterference
import RuleTree.Proofs.Graph.Readers
/-!
# Soundness of dependency tracking

Facts that agree outside a key (`Entries.AgreeOutside`) give the same at every path that
does not start with the key. An expression that asks for no path starting with it has the
same outcome on both (`evaluate_eq_of_agreeOutside`), and one that does is among the edges
found back from the key. So a rule whose outcome changes with the value under a key is
listed there (`Engine.mem_dependencies_of_outcome_ne`).
-/

namespace RuleTree

/-! ## Facts that differ under one key -/

/-- The same values are bound under every key but one. -/
def Entries.AgreeOutside (k : String) (es fs : List (String × Value)) : Prop :=
  ∀ key, key ≠ k → Entries.get? key es = Entries.get? key fs

namespace Value

/-- Whether it is a text that has no empty segment. -/
def isFullPath : Value → Bool
  | str p => (Path.ofText p).all fun segment => segment ≠ ""
  | _ => false

theorem isText_of_isFullPath {v : Value} (h : v.isFullPath = true) : v.isText = true := by
  cases v <;> first | rfl | cases h

theorem isFullPath_str {p : String} (h : (str p).isFullPath = true) :
    ∀ s ∈ Path.ofText p, s ≠ "" :=
  fun s hs => of_decide_eq_true (List.all_eq_true.mp h s hs)

theorem factAt_of_agreeOutside {k segment : String} {i j : Ident} {es fs : List (String × Value)}
    (h : Entries.AgreeOutside k es fs) (hs : segment ≠ "") (hk : segment ≠ k) (rest : Path) :
    factAt (segment :: rest) (.map i es) = factAt (segment :: rest) (.map j fs) := by
  rw [factAt, factAt, if_neg hs, if_neg hs, child?, child?, h segment hk]

end Value

/-- An expression that asks for no path starting with a key has the same outcome on facts
that agree outside the key. -/
theorem evaluate_eq_of_agreeOutside {logic : Value} {k : String} {i j : Ident}
    {es fs : List (String × Value)} (hlogic : (Expr.ofValue logic).asksBy Value.isFullPath = true)
    (hloop : k ≠ loopKey) (hasked : ∀ p ∈ Rules.asked logic, ∀ rest, Path.ofText p ≠ k :: rest)
    (h : Entries.AgreeOutside k es fs) (limit : Int) :
    evaluate logic (.map i es) limit = evaluate logic (.map j fs) limit := by
  have hfact : ∀ p, (∀ s ∈ Path.ofText p, s ≠ "") → (∀ rest, Path.ofText p ≠ k :: rest) →
      Value.factAt (Path.ofText p) (.map i es) = Value.factAt (Path.ofText p) (.map j fs) := by
    intro p hfull hstart
    obtain ⟨segment, rest, hp⟩ := List.exists_cons_of_ne_nil (Path.ofText_ne_nil p)
    have hs : segment ≠ "" := hfull segment (by simp [hp])
    have hk : segment ≠ k := fun he => hstart rest (he ▸ hp)
    rw [hp]
    exact Value.factAt_of_agreeOutside h hs hk rest
  have hpath : Path.ofText loopKey = [loopKey] := rfl
  have hitem : ∀ rest, Path.ofText loopKey ≠ k :: rest :=
    fun rest he => hloop (List.cons.inj (hpath.symm.trans he)).1.symm
  obtain ⟨paths, hpaths⟩ := Expr.exists_dependencies_of_asksBy hlogic
  refine evaluate_congr (fun _ hv => Value.isText_of_isFullPath hv) hlogic
    ⟨rfl, rfl, fun p hp => ?_⟩ limit
  by_cases hl : p = loopKey
  · subst hl
    exact hfact loopKey (by decide) hitem
  · have hscan := hp.resolve_left hl
    have hdep : p ∈ Rules.asked logic :=
      Rules.asked_eq hpaths ▸ (Expr.mem_dependencies_iff hpaths).mpr ⟨hscan, hl⟩
    exact hfact p (Value.isFullPath_str (Expr.test_of_mem_scan _ hlogic p hscan)) (hasked p hdep)

/-- The paths asked for have no empty segments if the facts are asked for by such texts. -/
theorem Rules.fullPaths_of_asksBy {rules : Value}
    (h : ∀ p ∈ expressions rules, (Expr.ofValue p.2).asksBy Value.isFullPath = true) :
    ∀ p ∈ askedPaths rules, ∀ s ∈ Path.ofText p, s ≠ "" := by
  intro p hp
  obtain ⟨address, e, he, hp⟩ := mem_askedPaths_iff.mp hp
  have hasks := h (address, e) (mem_expressions_iff.mpr he)
  obtain ⟨paths, hpaths⟩ := Expr.exists_dependencies_of_asksBy hasks
  have hscan := ((Expr.mem_dependencies_iff hpaths).mp (asked_eq hpaths ▸ hp)).1
  exact Value.isFullPath_str (Expr.test_of_mem_scan _ hasks p hscan)

/-! ## Runs -/

namespace Engine

open Rules

variable {rules : Value} {settings : Settings} {e : Engine}

/-- The rule at a rule path is the expression that stands there. -/
theorem rule_of_standsAt (hkeys : ∀ key ∈ groupKeys rules, Path.Plain key)
    (hd : rules.distinctKeys = true) (he : ofRules rules settings = .ok e) {address : Path}
    {logic : Value} (hs : StandsAt rules address logic) :
    e.rule (.str address.text) = .ok logic := by
  have hfind := find_ofText_of_standsAt hs (isWritable_of_ofRules he) hd
    (hs.forall_mem_address hkeys Path.plain_toString)
  rw [rule, segments, Path.ofValue, (ofRules_eq_ok he).1]
  show (find (Path.ofText address.text) rules).mapError _ = _
  rw [hfind]
  rfl

/-- A run at a rule path evaluates the expression that stands there, and reports nothing. -/
theorem run_of_standsAt (hkeys : ∀ key ∈ groupKeys rules, Path.Plain key)
    (hd : rules.distinctKeys = true) (he : ofRules rules settings = .ok e) {address : Path}
    {logic : Value} (hs : StandsAt rules address logic) (id : Ident)
    (entries : List (String × Value)) :
    e.run (.str address.text) (.map id entries) =
      Logged.silent ((evaluate logic (.map id entries) settings.depthLimit).mapError
        .evaluation) := by
  rw [run, rule_of_standsAt hkeys hd he hs, ← (ofRules_eq_ok he).2.1]
  rfl

/-- The edges at a plain key are looked up in the graph. -/
theorem dependencies_of_edges {k : String} (hk : Path.Plain k) {direction : Direction}
    {found : List Value} (h : e.graph.edges [k] direction = .ok found) :
    e.dependencies (.str k) direction = .ok found := by
  have hpath : Path.ofText k = [k] := by
    have htext : Path.text [k] = k := rfl
    rw [← htext]
    exact Path.ofText_text_of_plain (by simp) (by simpa using hk)
  rw [dependencies, segments, Path.ofValue, hpath]
  show (e.graph.edges [k] direction).mapError _ = _
  rw [h]
  rfl

/-- A rule whose outcome, value or error, changes with the facts under a key is listed among
the dependencies back from the key. -/
theorem mem_dependencies_of_outcome_ne (hr : rules.isExpression = false)
    (hd : rules.distinctKeys = true) (he : ofRules rules settings = .ok e)
    (hkeys : ∀ key ∈ groupKeys rules, Path.Plain key)
    (hasks : ∀ p ∈ expressions rules, (Expr.ofValue p.2).asksBy Value.isFullPath = true)
    {k : String} (hk : Path.Plain k) (hwild : k ≠ Path.wildcard) (hloop : k ≠ loopKey)
    {i j : Ident} {es fs : List (String × Value)} (hfacts : Entries.AgreeOutside k es fs)
    {r : String} (hpath : r ∈ e.rulePaths)
    (hne : (e.run (.str r) (.map i es)).outcome ≠ (e.run (.str r) (.map j fs)).outcome) :
    ∃ found, e.dependencies (.str k) .backward = .ok found ∧ .str r ∈ found := by
  obtain ⟨hrules, -, hg⟩ := ofRules_eq_ok he
  rw [rulePaths, hrules] at hpath
  obtain ⟨address, logic, hs, rfl⟩ := mem_paths_iff.mp hpath
  have hplain : PlainEdges rules := ⟨hr, hkeys, fullPaths_of_asksBy hasks⟩
  have hlogic := hasks (address, logic) (mem_expressions_iff.mpr hs)
  rw [addressText_of_plain (hplain.of_standsAt hs).2] at hne ⊢
  -- otherwise no path that the expression asks for starts with the key
  by_contra hno
  refine hne ?_
  have hasked : ∀ p ∈ asked logic, ∀ rest, Path.ofText p ≠ k :: rest := by
    intro p hp rest hstart
    have hedge := mem_recorded.mpr ⟨address, logic, p, hs, hp, rfl⟩
    have htarget : Path.ofText p ++ address.tail = [k] ++ (rest ++ address.tail) := by
      rw [hstart]
      rfl
    obtain ⟨found, hfound, hin⟩ :=
      Graph.exists_edges_of_recorded hplain hg hedge htarget (by simpa using hwild)
    exact hno ⟨found, dependencies_of_edges hk hfound, hin⟩
  rw [run_of_standsAt hkeys hd he hs, run_of_standsAt hkeys hd he hs,
    evaluate_eq_of_agreeOutside hlogic hloop hasked hfacts]

/-- A rule in a list that asks for a part of the income. -/
def incomeRules : Value := .ofEntries [("tax", .ofList [.ofEntries [("if", .ofList [
  .ofEntries [("===", .ofList [.ofEntries [("var", .str "income.kind")], .str "wage"])],
  .str "due", .str "none"])]])]

/-- A change of one fact that changes a result, with the edge that tells so. -/
theorem mem_dependencies_of_income : ∃ e found, ofRules incomeRules .standard = .ok e ∧
    (e.run (.str "tax.0") (.map (.given 0) [
      ("year", .int 3), ("income", .map (.given 1) [("kind", .str "wage")])])).outcome ≠
    (e.run (.str "tax.0") (.map (.given 2) [
      ("income", .map (.given 3) [("kind", .str "gift")]), ("year", .int 3)])).outcome ∧
    e.dependencies (.str "income") .backward = .ok found ∧ .str "tax.0" ∈ found := by
  obtain ⟨e, he⟩ : ∃ e, ofRules incomeRules .standard = .ok e := ⟨_, rfl⟩
  have hpath : "tax.0" ∈ e.rulePaths := by
    rw [rulePaths, (ofRules_eq_ok he).1]
    decide
  have hfacts : Entries.AgreeOutside "income"
      [("year", .int 3), ("income", .map (.given 1) [("kind", .str "wage")])]
      [("income", .map (.given 3) [("kind", .str "gift")]), ("year", .int 3)] := by
    intro key hk
    simp [Entries.get?, Ne.symm hk]
  have hne : (e.run (.str "tax.0") (.map (.given 0) [
        ("year", .int 3), ("income", .map (.given 1) [("kind", .str "wage")])])).outcome ≠
      (e.run (.str "tax.0") (.map (.given 2) [
        ("income", .map (.given 3) [("kind", .str "gift")]), ("year", .int 3)])).outcome := by
    obtain rfl := Except.ok.inj he
    intro h
    have hvalue : Except.ok (Value.str "due") = .ok (Value.str "none") := congrArg Prod.fst h
    exact absurd (Value.str.inj (Except.ok.inj hvalue)) (by decide)
  obtain ⟨found, hfound, hin⟩ := mem_dependencies_of_outcome_ne rfl rfl he (by decide)
    (by decide) (by decide) (by decide) (by decide) hfacts hpath hne
  exact ⟨e, found, he, hne, hfound, hin⟩

end Engine

end RuleTree
