import RuleTree.Proofs.Graph.Readers
import Mathlib.Data.List.Chain
/-!
# Cycles

The chain of a walk has distinct members, each of which leads to the next, and all but the
first are out of the texts that the graph mentions (`Graph.Chain`). So it is never longer than
the bound, and a walk along a directed graph fails only at an edge back into the chain, which
closes a cycle (`Graph.cycle_of_walk_eq_error`). If it succeeds, no path it comes to lies on a
cycle (`Graph.not_transGen_of_walk`). Hence propagation reports a cycle exactly if one can be
reached (`Engine.propagate_cycle_iff`).
-/

namespace RuleTree

namespace Graph

open RuleTree.Path Relation

variable {g : Graph} {direction : Direction}

/-! ## Cycles -/

/-- Different paths each of which leads to the next one, and the last one to the first. -/
structure Cycle (g : Graph) (direction : Direction) (first : String) (members : List String) :
    Prop where
  distinct : (first :: members).Nodup
  follows : (first :: members ++ [first]).IsChain (g.Leads direction)

/-- Around a cycle a path leads to itself. -/
theorem Cycle.transGen {first : String} {members : List String}
    (h : Cycle g direction first members) : TransGen (g.Leads direction) first first := by
  obtain ⟨next, rest, hnext⟩ := List.exists_cons_of_ne_nil
    (List.append_ne_nil_of_right_ne_nil members (List.cons_ne_nil first []))
  have hfollows := h.follows
  rw [List.cons_append, hnext, List.isChain_cons_cons] at hfollows
  have hlast : (next :: rest).getLast (List.cons_ne_nil _ _) = first := by simp [← hnext]
  exact .head' hfollows.1
    (List.relationReflTransGen_of_exists_isChain_cons rest hfollows.2 hlast)

/-! ## Chains -/

/-- The chain of a walk from one path to another. -/
structure Chain (g : Graph) (direction : Direction) (stock : List String) (start : String)
    (rest : List String) (last : String) : Prop where
  ends : (start :: rest).getLast? = some last
  follows : (start :: rest).IsChain (g.Leads direction)
  distinct : (start :: rest).Nodup
  stocked : rest ⊆ stock

namespace Chain

variable {stock rest : List String} {start last v : String}

theorem single (g : Graph) (direction : Direction) (stock : List String) (start : String) :
    Chain g direction stock start [] start :=
  ⟨rfl, List.isChain_singleton _, List.nodup_singleton _, List.nil_subset _⟩

variable (h : Chain g direction stock start rest last)
include h

/-- Go on to a path out of the stock that is not in the chain yet. -/
theorem push (hleads : g.Leads direction last v) (hv : v ∈ stock) (hnew : v ∉ start :: rest) :
    Chain g direction stock start (rest ++ [v]) v := by
  have hcons : start :: (rest ++ [v]) = (start :: rest) ++ [v] := rfl
  refine ⟨?_, ?_, ?_, ?_⟩
  · rw [hcons, List.getLast?_concat]
  · rw [hcons]
    refine h.follows.append (List.isChain_singleton _) fun x hx y hy => ?_
    obtain rfl := Option.some.inj (h.ends.symm.trans hx)
    obtain rfl := Option.some.inj hy
    exact hleads
  · rw [hcons]
    exact List.nodup_append.mpr ⟨h.distinct, List.nodup_singleton _, by
      rintro a ha b hb rfl
      exact hnew (List.mem_singleton.mp hb ▸ ha)⟩
  · exact List.append_subset.mpr ⟨h.stocked, by simpa using hv⟩

/-- A chain has at most one member more than the stock. -/
theorem length_le : rest.length ≤ stock.length :=
  ((List.nodup_cons.mp h.distinct).2.subperm h.stocked).length_le

/-- The start leads to every member. -/
theorem reaches : ∀ w ∈ start :: rest, ReflTransGen (g.Leads direction) start w :=
  h.follows.induction _ _ (fun _ _ hstep hw => hw.tail hstep) fun _ => .refl

/-- An edge from the end back into the chain closes a cycle, and the start leads to it. -/
theorem close (hleads : g.Leads direction last v) {before after : List String}
    (hsplit : start :: rest = before ++ v :: after) :
    Cycle g direction v after ∧ ReflTransGen (g.Leads direction) start v := by
  have hreach := h.reaches v (hsplit ▸ List.mem_append_right _ (List.mem_cons_self ..))
  have hfollows := h.follows
  have hdistinct := h.distinct
  have hends := h.ends
  rw [hsplit] at hfollows hdistinct hends
  refine ⟨⟨hdistinct.of_append_right, ?_⟩, hreach⟩
  refine hfollows.right_of_append.append (List.isChain_singleton _) fun x hx y hy => ?_
  rw [List.getLast?_append_of_ne_nil _ (List.cons_ne_nil _ _)] at hends
  obtain rfl := Option.some.inj (hends.symm.trans hx)
  obtain rfl := Option.some.inj hy
  exact hleads

end Chain

/-! ## Walks that fail -/

theorem texts?_map_str (texts : List String) : texts? (texts.map .str) = some texts := by
  induction texts with
  | nil => rfl
  | cons t texts ih =>
    rw [List.map_cons, texts?, List.mapM_cons]
    show (texts? (texts.map .str) >>= fun rest => some (t :: rest)) = _
    rw [ih]
    rfl

/-- The cycle reported is the chain from the path that an edge leads back to. -/
theorem cycleError_texts {before after : List String} {v : String} (hv : v ∉ before) :
    cycleError ((before ++ v :: after).map .str) (.str v) = .cycle (v :: after ++ [v]) := by
  have hdrop : ((before ++ v :: after).map Value.str).dropWhile
      (fun w => !(Value.str v).sameContent w) = (v :: after).map .str := by
    have hbefore : ∀ w ∈ before.map Value.str, (!(Value.str v).sameContent w) = true := by
      intro w hw
      obtain ⟨t, ht, rfl⟩ := List.mem_map.mp hw
      have hne : v ≠ t := fun he => hv (he ▸ ht)
      have hsame : (Value.str v).sameContent (.str t) = false := decide_eq_false hne
      rw [hsame]
      rfl
    have hself : (Value.str v).sameContent (.str v) = true := decide_eq_true rfl
    rw [List.map_append, List.dropWhile_append_of_pos hbefore, List.map_cons,
      List.dropWhile_cons_of_neg (by simp [hself])]
  have htexts : (v :: after).map Value.str ++ [.str v] = (v :: after ++ [v]).map .str := by simp
  rw [cycleError, hdrop, htexts, texts?_map_str]

variable {domain : String → Prop} {stock : List String}

/-- A walk along a directed graph that finds only texts of a stock and has fuel for a chain of
all of them fails only with a cycle that its start leads to. -/
theorem cycle_of_walk_eq_error (hd : direction ≠ .undirected)
    (hfinds : g.Finds direction domain fun t => domain t ∧ t ∈ stock)
    (hedges : ∀ u, domain u → ∃ found, g.edges (ofText u) direction = .ok found)
    {err : PropagationError} {start : String} : ∀ {fuel : Nat} {rest : List String}
      {last : String}, Chain g direction stock start rest last → domain last →
        stock.length < fuel + rest.length →
        walk g direction fuel ((start :: rest).map .str) (.str last) = .error err →
          ∃ first members, err = .cycle (first :: members ++ [first]) ∧
            Cycle g direction first members ∧ ReflTransGen (g.Leads direction) start first := by
  -- the fuel spent is the length of the chain, and no text of the stock is in it twice
  intro fuel
  induction fuel with
  | zero =>
    intro rest last hchain _ hfuel _
    exact absurd hchain.length_le (by omega)
  | succ fuel ih =>
    intro rest last hchain hlast hfuel h
    obtain ⟨every, hevery⟩ := hedges last hlast
    obtain ⟨texts, rfl, htexts⟩ := hfinds last hlast every hevery
    rcases of_walk_eq_error h with hsteps | ⟨found, edge, hsteps, hedge, hwalk⟩
    · rcases of_steps_eq_error hd hsteps with ⟨m, hm⟩ | ⟨found, edge, he, hedge, hback, rfl⟩
      · cases hevery.symm.trans hm
      · obtain rfl := Except.ok.inj (hevery.symm.trans he)
        obtain ⟨v, -, rfl⟩ := List.mem_map.mp hedge
        have hv : v ∈ start :: rest := inChain_texts.mp hback
        obtain ⟨before, after, hsplit, hbefore⟩ := List.eq_append_cons_of_mem hv
        exact ⟨v, after, hsplit ▸ cycleError_texts hbefore,
          hchain.close ⟨_, hevery, hedge⟩ hsplit⟩
    · obtain ⟨segments, hp, he, hnew⟩ := (steps_eq_ok_iff hd).mp hsteps
      obtain rfl := Except.ok.inj hp
      obtain rfl := Except.ok.inj (hevery.symm.trans he)
      obtain ⟨v, hv, rfl⟩ := List.mem_map.mp hedge
      have hnotin : v ∉ start :: rest := fun hin =>
        Bool.false_ne_true ((hnew _ hedge).symm.trans (inChain_texts.mpr hin))
      have hpushed := hchain.push ⟨_, hevery, hedge⟩ (htexts v hv).2 hnotin
      refine ih hpushed (htexts v hv).1 ?_ ?_
      · rw [List.length_append, List.length_singleton]
        omega
      · simpa using hwalk

/-- Propagation along a directed graph has enough fuel for all texts that the graph mentions. -/
theorem cycle_of_propagate_eq_error (hd : direction ≠ .undirected)
    (hfinds : g.Finds direction domain fun t =>
      domain t ∧ t ∈ EdgeMap.mentioned (g.view direction))
    (hedges : ∀ u, domain u → ∃ found, g.edges (ofText u) direction = .ok found) {p : String}
    (hp : domain p) {err : PropagationError} (h : g.propagate direction (.str p) = .error err) :
    ∃ first members, err = .cycle (first :: members ++ [first]) ∧
      Cycle g direction first members ∧ ReflTransGen (g.Leads direction) p first := by
  have hfuel : (EdgeMap.mentioned (g.view direction)).length <
      g.chainBound direction + ([] : List String).length := by
    have hweight := EdgeMap.length_mentioned_le (g.view direction)
    rw [chainBound, List.length_nil]
    omega
  exact cycle_of_walk_eq_error hd hfinds hedges (.single _ _ _ p) hp hfuel h

/-! ## Walks that succeed -/

/-- A walk that succeeds comes to no path of its own chain. -/
theorem inChain_eq_false_of_transGen (hd : direction ≠ .undirected) {u w : String}
    (h : TransGen (g.Leads direction) u w) : ∀ {fuel : Nat} {chain all : List Value},
      walk g direction fuel chain (.str u) = .ok all → inChain chain (.str w) = false := by
  -- the chain grows along the way, so the induction is on the first step
  induction h using TransGen.head_induction_on with
  | single hleads =>
    intro fuel chain all hwalk
    obtain ⟨rest, found, beyond, -, he, hnew, -, -⟩ := of_walk_text_eq_ok hd hwalk
    exact hnew _ (hleads.mem he)
  | head hleads _ ih =>
    intro fuel chain all hwalk
    obtain ⟨rest, found, beyond, -, he, -, hbeyond, -⟩ := of_walk_text_eq_ok hd hwalk
    obtain ⟨each, -, hnext⟩ := exists_mem_right_of_forall₂ hbeyond (hleads.mem he)
    have hlonger := ih hnext
    rw [inChain_append, Bool.or_eq_false_iff] at hlonger
    exact hlonger.1

/-- A walk that succeeds comes to no path that leads back to itself. -/
theorem not_transGen_of_walk (hd : direction ≠ .undirected) {u v : String}
    (h : ReflTransGen (g.Leads direction) u v) : ∀ {fuel : Nat} {chain all : List Value},
      inChain chain (.str u) = true → walk g direction fuel chain (.str u) = .ok all →
        ¬ TransGen (g.Leads direction) v v := by
  induction h using ReflTransGen.head_induction_on with
  | refl =>
    intro fuel chain all hchain hwalk hcycle
    exact Bool.false_ne_true
      ((inChain_eq_false_of_transGen hd hcycle hwalk).symm.trans hchain)
  | @head _ w hleads _ ih =>
    intro fuel chain all _ hwalk
    obtain ⟨rest, found, beyond, -, he, -, hbeyond, -⟩ := of_walk_text_eq_ok hd hwalk
    obtain ⟨each, -, hnext⟩ := exists_mem_right_of_forall₂ hbeyond (hleads.mem he)
    have hself : inChain (chain ++ [.str w]) (.str w) = true := by
      rw [inChain_append]
      exact Bool.or_eq_true_iff.mpr (Or.inr (decide_eq_true rfl))
    exact ih hself hnext

end Graph

/-! ## Propagation -/

namespace Engine

open RuleTree.Path Rules Relation

variable {rules : Value} {settings : Settings} {e : Engine}

/-- Propagation along a directed graph whose segments are legible fails only with a cycle. -/
theorem exists_cycle_of_propagate (he : ofRules rules settings = .ok e)
    (h : Consists Legible rules) {p : String} (hp : Throughout Legible p) {direction : Direction}
    (hd : direction ≠ .undirected) {err : EngineError}
    (herr : e.propagate (.str p) direction = .error err) :
    ∃ first members, err = .propagation (.cycle (first :: members ++ [first])) ∧
      e.graph.Cycle direction first members ∧
      ReflTransGen (e.graph.Leads direction) p first := by
  obtain ⟨-, -, hg⟩ := ofRules_eq_ok he
  obtain ⟨err, hwalk, rfl⟩ := exists_of_mapError_eq_error herr
  have hfinds := Graph.finds_walkable h hg direction
  have hedges : ∀ u, Walkable Legible u →
      ∃ found, e.graph.edges (ofText u) direction = .ok found :=
    fun u hu => Graph.exists_edges e.graph direction hu
  obtain ⟨first, members, rfl, hcycle⟩ :=
    Graph.cycle_of_propagate_eq_error hd hfinds hedges (Or.inl hp) hwalk
  exact ⟨first, members, rfl, hcycle⟩

/-- Propagation along a directed graph reports a cycle exactly if the start leads to a path
that leads back to itself, and it fails in no other way. -/
theorem propagate_cycle_iff (he : ofRules rules settings = .ok e)
    (hkeys : ∀ key ∈ groupKeys rules, Throughout Legible key)
    (hpaths : ∀ p ∈ askedPaths rules, Throughout Legible p) {p : String}
    (hp : Throughout Legible p) {direction : Direction} (hd : direction ≠ .undirected) :
    ((∃ cycle, e.propagate (.str p) direction = .error (.propagation (.cycle cycle))) ↔
      ∃ v, ReflTransGen (e.graph.Leads direction) p v ∧
        TransGen (e.graph.Leads direction) v v) ∧
    ∀ err, e.propagate (.str p) direction = .error err →
      ∃ first members, err = .propagation (.cycle (first :: members ++ [first])) ∧
        e.graph.Cycle direction first members ∧
        ReflTransGen (e.graph.Leads direction) p first := by
  have hconsists : Consists Legible rules := ⟨admissible_legible, hkeys, hpaths⟩
  refine ⟨⟨?_, ?_⟩, fun err herr => exists_cycle_of_propagate he hconsists hp hd herr⟩
  · rintro ⟨cycle, herr⟩
    obtain ⟨first, members, -, hcycle, hreach⟩ :=
      exists_cycle_of_propagate he hconsists hp hd herr
    exact ⟨first, hreach, hcycle.transGen⟩
  · rintro ⟨v, hreach, hcycle⟩
    cases h : e.propagate (.str p) direction with
    | error err =>
      obtain ⟨first, members, rfl, -⟩ := exists_cycle_of_propagate he hconsists hp hd h
      exact ⟨_, rfl⟩
    | ok all =>
      have hchain : Graph.inChain ([p].map .str) (.str p) = true :=
        Graph.inChain_texts.mpr (List.mem_singleton_self p)
      exact absurd hcycle (Graph.not_transGen_of_walk hd hreach hchain (of_mapError_eq_ok h))

/-- A rule that reads a leaf and one of two rules that read each other. -/
def loopedReads : Value := .ofEntries [
  ("start", .ofEntries [("+", .ofList [.ofEntries [("var", .str "leaf")],
    .ofEntries [("var", .str "x")]])]),
  ("x", .ofEntries [("var", .str "y")]),
  ("y", .ofEntries [("var", .str "x")])]

/-- A loop behind the start is reported from its first member on. -/
theorem exists_cycle_of_loopedReads : ∃ e, ofRules loopedReads .standard = .ok e ∧
    e.propagate (.str "start") .forward = .error (.propagation (.cycle ["x", "y", "x"])) ∧
    ∃ v, ReflTransGen (e.graph.Leads .forward) "start" v ∧
      TransGen (e.graph.Leads .forward) v v := by
  obtain ⟨e, he⟩ : ∃ e, ofRules loopedReads .standard = .ok e := ⟨_, rfl⟩
  have hcycle : e.propagate (.str "start") .forward =
      .error (.propagation (.cycle ["x", "y", "x"])) := by
    obtain rfl := Except.ok.inj he
    rfl
  refine ⟨e, he, hcycle, ?_⟩
  exact (propagate_cycle_iff he (by decide) (by decide) (by decide) (by decide)).1.mp
    ⟨_, hcycle⟩

end Engine

end RuleTree
