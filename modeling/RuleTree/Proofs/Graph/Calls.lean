import RuleTree.Proofs.Graph.Cycles
import Mathlib.Data.Finite.Defs
/-!
# Calls of a walk

A walk calls itself on the edges that its steps take (`Graph.Call`), and the chain of a call is
where the calls before it stood. In a graph without wildcards the chain has no path twice, and
all of it but the start is out of the texts that look-ups find, which are finitely many. So no
chain is longer than their number and one (`Graph.Call.exists_chain`), a walk with fuel for that
many never runs out of it, and more fuel changes nothing (`Graph.walk_of_call`) : propagation
ends in every direction, on rules with cycles too (`Engine.propagate_terminates`).
-/

namespace RuleTree

namespace Graph

open RuleTree.Path

variable {g : Graph} {direction : Direction} {chain : List Value} {path : Value}

/-! ## Calls -/

/-- The calls that a walk from a path can make, each with its chain and where it stands. -/
inductive Call (g : Graph) (direction : Direction) (start : Value) : List Value → Value → Prop
  | first : Call g direction start [start] start
  | next {chain found : List Value} {path v : Value} (before : Call g direction start chain path)
    (taken : steps g direction chain path = .ok found) (mem : v ∈ found) :
    Call g direction start (chain ++ [v]) v

/-- A step never takes an edge that leads back into the chain. -/
theorem not_inChain_of_steps {found : List Value}
    (h : steps g direction chain path = .ok found) : ∀ v ∈ found, inChain chain v = false := by
  by_cases hd : direction = .undirected
  · subst hd
    cases hp : Path.ofValue path with
    | error reason =>
      rw [steps, hp] at h
      cases h
    | ok segments =>
      rw [steps_eq hp] at h
      obtain ⟨all, -, h⟩ := exists_of_bind_eq_ok h
      obtain rfl := Except.ok.inj h
      intro v hv
      simpa using (List.mem_filter.mp hv).2
  · obtain ⟨-, -, -, hnew⟩ := (steps_eq_ok_iff hd).mp h
    exact hnew

theorem cycleError_ne_exhausted : cycleError chain path ≠ .exhausted := by
  unfold cycleError
  split <;> nofun

/-- A step is not short of fuel. -/
theorem steps_ne_exhausted : steps g direction chain path ≠ .error .exhausted := by
  intro h
  cases hp : Path.ofValue path with
  | error reason =>
    rw [steps, hp] at h
    cases reason <;> cases h
  | ok segments =>
    rw [steps_eq hp] at h
    rcases of_bind_eq_error h with h | ⟨found, -, h⟩
    · obtain ⟨-, -, h⟩ := exists_of_mapError_eq_error h
      cases h
    · cases direction with
      | undirected => cases h
      | forward | backward =>
        cases hback : found.find? (inChain chain) with
        | none =>
          simp only [hback] at h
          cases h
        | some edge =>
          simp only [hback] at h
          exact cycleError_ne_exhausted (Except.error.inj h)

/-- A walk that fails is short of fuel, or the step of one of its calls fails. -/
theorem exists_call_of_walk_eq_error {start : Value} {err : PropagationError} : ∀ {fuel : Nat}
    {chain : List Value} {path : Value}, Call g direction start chain path →
      walk g direction fuel chain path = .error err → err = .exhausted ∨
        ∃ chain path, Call g direction start chain path ∧
          steps g direction chain path = .error err
  | 0, _, _, _, h => Or.inl (Except.error.inj h).symm
  | fuel + 1, chain, path, hcall, h => by
    rcases of_walk_eq_error h with hsteps | ⟨found, v, hsteps, hv, hwalk⟩
    · exact Or.inr ⟨chain, path, hcall, hsteps⟩
    · exact exists_call_of_walk_eq_error (hcall.next hsteps hv) hwalk

section

variable {domain : String → Prop} {stock : List String}
  (hfinds : g.Finds direction domain fun t => domain t ∧ t ∈ stock)
include hfinds

/-- The chain of a call has distinct members, out of the stock but for the start. -/
theorem Call.exists_chain {start : String} (hstart : domain start)
    (h : Call g direction (.str start) chain path) : ∃ rest last,
      chain = (start :: rest).map .str ∧ path = .str last ∧ domain last ∧
        Chain g direction stock start rest last := by
  induction h with
  | first => exact ⟨[], start, rfl, rfl, hstart, .single _ _ _ start⟩
  | @next chain found path v _ taken mem ih =>
    obtain ⟨rest, last, rfl, rfl, hlast, hchain⟩ := ih
    obtain ⟨all, hall, hsub⟩ := exists_edges_of_steps taken
    obtain ⟨texts, rfl, htexts⟩ := hfinds last hlast all hall
    obtain ⟨t, ht, rfl⟩ := List.mem_map.mp (hsub mem)
    have hnew : t ∉ start :: rest := fun hin =>
      Bool.false_ne_true ((not_inChain_of_steps taken _ mem).symm.trans (inChain_texts.mpr hin))
    refine ⟨rest ++ [t], t, by simp, rfl, (htexts t ht).1, ?_⟩
    exact hchain.push ⟨_, hall, hsub mem⟩ (htexts t ht).2 hnew

/-- A call with fuel for all that its chain can still get is not short of it, and more fuel
changes nothing. -/
theorem walk_of_call {start : String} (hstart : domain start) : ∀ {fuel : Nat}
    {chain : List Value} {path : Value}, Call g direction (.str start) chain path →
      stock.length + 1 < fuel + chain.length →
        walk g direction fuel chain path ≠ .error .exhausted ∧
          ∀ fuel', fuel ≤ fuel' →
            walk g direction fuel' chain path = walk g direction fuel chain path := by
  intro fuel
  induction fuel with
  | zero =>
    intro chain path hcall hfuel
    obtain ⟨rest, last, rfl, -, -, hchain⟩ := hcall.exists_chain hfinds hstart
    have hlength := hchain.length_le
    simp only [List.length_map, List.length_cons] at hfuel
    omega
  | succ fuel ih =>
    intro chain path hcall hfuel
    have hbelow : ∀ {found v}, steps g direction chain path = .ok found → v ∈ found →
        walk g direction fuel (chain ++ [v]) v ≠ .error .exhausted ∧ ∀ fuel', fuel ≤ fuel' →
          walk g direction fuel' (chain ++ [v]) v = walk g direction fuel (chain ++ [v]) v := by
      intro found v hsteps hv
      refine ih (hcall.next hsteps hv) ?_
      rw [List.length_append, List.length_singleton]
      omega
    constructor
    · intro h
      rcases of_walk_eq_error h with hsteps | ⟨found, v, hsteps, hv, hwalk⟩
      · exact steps_ne_exhausted hsteps
      · exact (hbelow hsteps hv).1 hwalk
    · intro fuel' hle
      obtain ⟨fuel', rfl⟩ : ∃ n, fuel' = n + 1 := ⟨fuel' - 1, by omega⟩
      rw [walk, walk]
      cases hsteps : steps g direction chain path with
      | error err => rfl
      | ok found =>
        have heach : ∀ v ∈ found, walk g direction fuel' (chain ++ [v]) v =
            walk g direction fuel (chain ++ [v]) v :=
          fun v hv => (hbelow hsteps hv).2 fuel' (Nat.le_of_succ_le_succ hle)
        exact congrArg (· >>= fun beyond => .ok (found ++ beyond.flatten)) (mapM_congr heach)

end

/-- The texts that look-ups find are a stock, and look-ups on the way find nothing else. -/
theorem exists_stock {rules : Value} (h : Rules.Consists (· ≠ wildcard) rules)
    (hg : ofRules rules = .ok g) (direction : Direction) : ∃ stock : List String,
      (∀ t, t ∈ stock ↔ g.Given direction t) ∧
      stock.length = {t | g.Given direction t}.ncard ∧ stock.length < g.chainBound direction ∧
      g.Finds direction (Walkable (· ≠ wildcard)) fun t =>
        Walkable (· ≠ wildcard) t ∧ t ∈ stock := by
  obtain ⟨hfinite, hmentioned⟩ := finite_given g direction
  have hstock : ∀ t, t ∈ hfinite.toFinset.toList ↔ g.Given direction t := fun t => by
    rw [Finset.mem_toList, Set.Finite.mem_toFinset]
    exact Iff.rfl
  have hlength : hfinite.toFinset.toList.length = {t | g.Given direction t}.ncard := by
    rw [Finset.length_toList, Set.ncard_eq_toFinset_card _ hfinite]
  have hweight := EdgeMap.length_mentioned_le (g.view direction)
  refine ⟨hfinite.toFinset.toList, hstock, hlength, ?_, fun u hu found hfound => ?_⟩
  · rw [chainBound]
    omega
  · obtain ⟨texts, rfl, htexts⟩ := finds_walkable h hg direction u hu found hfound
    exact ⟨texts, rfl, fun t ht => ⟨(htexts t ht).1,
      (hstock t).mpr ⟨_, _, hfound, List.mem_map.mpr ⟨t, ht, rfl⟩⟩⟩⟩

end Graph

/-! ## Propagation -/

namespace Engine

open RuleTree.Path Rules

variable {rules : Value} {settings : Settings} {e : Engine}

/-- Propagation ends : no call has a path twice in its chain, all but the start are texts that
look-ups find, which are finitely many, and a depth of their number and one is enough. -/
theorem propagate_terminates (he : ofRules rules settings = .ok e)
    (hkeys : ∀ key ∈ groupKeys rules, Throughout (· ≠ wildcard) key)
    (hpaths : ∀ p ∈ askedPaths rules, Throughout (· ≠ wildcard) p) {p : String}
    (hp : Throughout (· ≠ wildcard) p) (direction : Direction) :
    {t | e.graph.Given direction t}.Finite ∧
    (∀ chain path, e.graph.Call direction (.str p) chain path → ∃ rest : List String,
      chain = (p :: rest).map .str ∧ (p :: rest).Nodup ∧
      (∀ t ∈ rest, e.graph.Given direction t) ∧
      chain.length ≤ {t | e.graph.Given direction t}.ncard + 1) ∧
    e.propagate (.str p) direction ≠ .error (.propagation .exhausted) ∧
    ∀ fuel, {t | e.graph.Given direction t}.ncard + 1 ≤ fuel →
      (e.graph.walk direction fuel [.str p] (.str p)).mapError .propagation =
        e.propagate (.str p) direction := by
  obtain ⟨-, -, hg⟩ := ofRules_eq_ok he
  have hconsists : Consists (· ≠ wildcard) rules := ⟨admissible_ne_wildcard, hkeys, hpaths⟩
  obtain ⟨stock, hstock, hlength, hbound, hfinds⟩ := Graph.exists_stock hconsists hg direction
  have hfirst : stock.length + 1 < (stock.length + 1) + [Value.str p].length := by simp
  obtain ⟨hends, hmore⟩ := Graph.walk_of_call hfinds (Or.inl hp) .first hfirst
  have hpropagate : e.propagate (.str p) direction =
      (e.graph.walk direction (stock.length + 1) [.str p] (.str p)).mapError .propagation := by
    rw [← hmore _ hbound]
    rfl
  refine ⟨(Graph.finite_given e.graph direction).1, fun chain path hcall => ?_, fun h => ?_,
    fun fuel hfuel => ?_⟩
  · obtain ⟨rest, last, rfl, rfl, -, hchain⟩ := hcall.exists_chain hfinds (Or.inl hp)
    refine ⟨rest, rfl, hchain.distinct, fun t ht => (hstock t).mp (hchain.stocked ht), ?_⟩
    have hrest := hchain.length_le
    simp only [List.length_map, List.length_cons]
    omega
  · rw [hpropagate] at h
    obtain ⟨err, hwalk, herr⟩ := exists_of_mapError_eq_error h
    obtain rfl := EngineError.propagation.inj herr
    exact hends hwalk
  · rw [hpropagate, hmore fuel (by omega)]

/-- Around rules that read each other, the undirected walk ends. -/
theorem propagate_terminates_of_loopedReads : ∃ e, ofRules loopedReads .standard = .ok e ∧
    e.propagate (.str "leaf") .undirected = .ok (["start", "x", "y"].map .str) ∧
    {t | e.graph.Given .undirected t}.Finite ∧
    ∀ chain path, e.graph.Call .undirected (.str "leaf") chain path →
      chain.length ≤ {t | e.graph.Given .undirected t}.ncard + 1 := by
  obtain ⟨e, he⟩ : ∃ e, ofRules loopedReads .standard = .ok e := ⟨_, rfl⟩
  have hall : e.propagate (.str "leaf") .undirected = .ok (["start", "x", "y"].map .str) := by
    obtain rfl := Except.ok.inj he
    rfl
  obtain ⟨hfinite, hcalls, -, -⟩ :=
    propagate_terminates he (by decide) (by decide) (by decide : Throughout (· ≠ wildcard) "leaf")
      .undirected
  refine ⟨e, he, hall, hfinite, fun chain path hcall => ?_⟩
  obtain ⟨rest, -, -, -, hlength⟩ := hcalls chain path hcall
  exact hlength

end Engine

end RuleTree
