import RuleTree.Proofs.Engine.Closure
import RuleTree.Proofs.Graph.Calls
/-!
# Tours

A tour is a way along edges told with the paths it comes to (`Graph.Tour`). In the undirected
graph a walk passes over the edges back into its chain (`Graph.steps_undirected`). So it goes on
along the tours that come to no path twice, and it lists the end of each of them once, whatever
chain it started with (`Graph.encard_toursOutside`). Since no step fails, propagation in the
undirected graph always gives a list, in which a path stands as often as there are tours without
repetition to it (`Engine.propagate_undirected_tours`).
-/

namespace RuleTree

namespace Graph

open RuleTree.Path

variable {g : Graph} {direction : Direction} {u v q : String}

/-! ## Tours -/

/-- A way along edges, told by the position of each edge among those found where it is taken,
with the paths that it comes to one after the other. -/
inductive Tour (g : Graph) (direction : Direction) : String → List Nat → List String → Prop
  | here (u : String) : Tour g direction u [] []
  | step {u v : String} {found : List Value} {n : Nat} {positions : List Nat}
    {stops : List String} (edges : g.edges (ofText u) direction = .ok found)
    (taken : found[n]? = some (.str v)) (rest : Tour g direction v positions stops) :
    Tour g direction u (n :: positions) (v :: stops)

/-- The tours with an edge from one path to another that come to no path twice and to none of
a chain. -/
def toursOutside (g : Graph) (direction : Direction) (chain : List String) (u q : String) :
    Set (List Nat) :=
  {positions | ∃ stops, Tour g direction u positions stops ∧ stops.Nodup ∧
    (∀ s ∈ stops, s ∉ chain) ∧ stops.getLast? = some q}

/-- The same with those that go nowhere. -/
def staysOutside (g : Graph) (direction : Direction) (chain : List String) (u q : String) :
    Set (List Nat) :=
  {positions | ∃ stops, Tour g direction u positions stops ∧ stops.Nodup ∧
    (∀ s ∈ stops, s ∉ chain) ∧ (u :: stops).getLast? = some q}

theorem toursOutside_eq_empty {chain : List String} (h : q ∈ chain) :
    toursOutside g direction chain u q = ∅ := by
  refine Set.eq_empty_of_forall_notMem fun positions => ?_
  rintro ⟨stops, -, -, hout, hlast⟩
  exact hout q (List.mem_of_getLast? hlast) h

/-- A tour goes nowhere or has an edge. -/
theorem encard_staysOutside (chain : List String) (u q : String) :
    (staysOutside g direction chain u q).encard =
      (if u = q then 1 else 0) + (toursOutside g direction chain u q).encard := by
  have hnil : [] ∉ toursOutside g direction chain u q := by
    rintro ⟨stops, htour, -, -, hlast⟩
    cases htour
    cases hlast
  have hmem : ∀ positions, positions ∈ staysOutside g direction chain u q ↔
      (u = q ∧ positions = []) ∨ positions ∈ toursOutside g direction chain u q := by
    intro positions
    constructor
    · rintro ⟨stops, htour, hnodup, hout, hlast⟩
      cases htour with
      | here => exact Or.inl ⟨Option.some.inj hlast, rfl⟩
      | step edges taken rest => exact Or.inr ⟨_, .step edges taken rest, hnodup, hout, hlast⟩
    · rintro (⟨rfl, rfl⟩ | ⟨stops, htour, hnodup, hout, hlast⟩)
      · exact ⟨[], .here u, List.nodup_nil, by simp, rfl⟩
      · exact ⟨stops, htour, hnodup, hout, by rw [List.getLast?_cons, hlast]; rfl⟩
  by_cases hu : u = q
  · have hset : staysOutside g direction chain u q =
        insert [] (toursOutside g direction chain u q) := by
      ext positions
      rw [hmem, Set.mem_insert_iff, and_iff_right hu]
    rw [hset, Set.encard_insert_of_notMem hnil, if_pos hu, add_comm]
  · have hset : staysOutside g direction chain u q = toursOutside g direction chain u q := by
      ext positions
      rw [hmem, or_iff_right fun h => hu h.1]
    rw [hset, if_neg hu, zero_add]

/-- A tour goes on from one of the edges, outside of the path that the edge leads to. -/
theorem toursOutside_eq_choices {texts : List String}
    (he : g.edges (ofText u) direction = .ok (texts.map .str)) (chain : List String) (q : String) :
    toursOutside g direction chain u q = Choices texts fun v =>
      {rest | v ∉ chain ∧ rest ∈ staysOutside g direction (chain ++ [v]) v q} := by
  ext positions
  constructor
  · rintro ⟨stops, htour, hnodup, hout, hlast⟩
    cases htour with
    | here => cases hlast
    | @step _ v found n rest stops edges taken htour =>
      obtain rfl := Except.ok.inj (he.symm.trans edges)
      rw [List.getElem?_map] at taken
      obtain ⟨v', hv, heq⟩ := Option.map_eq_some_iff.mp taken
      obtain rfl := Value.str.inj heq
      obtain ⟨hfirst, hrest⟩ := List.nodup_cons.mp hnodup
      refine ⟨n, v', rest, hv, ⟨hout v' (List.mem_cons_self ..), stops, htour, hrest,
        fun s hs => ?_, hlast⟩, rfl⟩
      rw [List.mem_append, List.mem_singleton, not_or]
      exact ⟨hout s (List.mem_cons_of_mem _ hs), fun heq => hfirst (heq ▸ hs)⟩
  · rintro ⟨n, v, rest, hv, ⟨hchain, stops, htour, hnodup, hout, hlast⟩, rfl⟩
    have hnew : ∀ s ∈ stops, s ∉ chain ∧ s ≠ v := fun s hs => by simpa using hout s hs
    refine ⟨v :: stops, .step he (by rw [List.getElem?_map, hv]; rfl) htour, ?_, ?_, hlast⟩
    · exact List.nodup_cons.mpr ⟨fun hs => (hnew v hs).2 rfl, hnodup⟩
    · exact List.forall_mem_cons.mpr ⟨hchain, fun s hs => (hnew s hs).1⟩

/-! ## Walks along the undirected graph -/

/-- In the undirected graph a step takes the edges that do not lead back into the chain. -/
theorem steps_undirected {texts : List String}
    (he : g.edges (ofText u) .undirected = .ok (texts.map .str)) (chain : List String) :
    steps g .undirected (chain.map .str) (.str u) =
      .ok ((texts.filter (· ∉ chain)).map .str) := by
  have hfilter : (texts.map Value.str).filter (fun edge => !inChain (chain.map .str) edge) =
      (texts.filter (· ∉ chain)).map .str := by
    rw [List.filter_map]
    refine congrArg _ (List.filter_congr fun t _ => ?_)
    have hin : inChain (chain.map .str) (.str t) = decide (t ∈ chain) :=
      Bool.eq_iff_iff.mpr (inChain_texts.trans decide_eq_true_iff.symm)
    simp [hin]
  rw [← hfilter, steps_eq rfl, he]
  rfl

/-- Only the items outside a chain count. -/
theorem sum_encard_filter (texts chain : List String) (T : String → Set (List Nat)) :
    (texts.map fun v => {rest | v ∉ chain ∧ rest ∈ T v}.encard).sum =
      ((texts.filter (· ∉ chain)).map fun v => (T v).encard).sum := by
  induction texts with
  | nil => rfl
  | cons v texts ih => by_cases hv : v ∈ chain <;> simp [hv, ih]

/-- A walk along the undirected graph lists the end of every tour outside its chain, once for
each such tour. -/
theorem encard_toursOutside {domain : String → Prop}
    (hfinds : g.Finds .undirected domain domain) : ∀ {fuel : Nat} {chain : List String}
      {u : String} {texts : List String}, domain u →
        walk g .undirected fuel (chain.map .str) (.str u) = .ok (texts.map .str) → ∀ q,
          (toursOutside g .undirected chain u q).encard = texts.count q := by
  -- what lies beyond an edge depends on the chain, so the chain varies along the induction
  intro fuel
  induction fuel with
  | zero =>
    intro chain u texts _ h
    cases h
  | succ fuel ih =>
    intro chain u texts hu h q
    obtain ⟨rest, found, beyond, hrest, hsteps, hbeyond, hall⟩ := of_walk_eq_ok h
    obtain rfl := Nat.succ.inj hrest
    obtain ⟨every, hevery, -⟩ := exists_edges_of_steps hsteps
    obtain ⟨next, rfl, hnext⟩ := hfinds u hu every hevery
    obtain rfl := Except.ok.inj (hsteps.symm.trans (steps_undirected hevery chain))
    have heach : List.Forall₂ (fun v each => ∃ texts : List String, each = texts.map .str ∧
        (toursOutside g .undirected (chain ++ [v]) v q).encard = texts.count q)
        (next.filter (· ∉ chain)) beyond := by
      rw [List.forall₂_map_left_iff] at hbeyond
      refine ((List.forall₂_and_left _ beyond).mpr
        ⟨fun v hv => hnext v (List.mem_of_mem_filter hv), hbeyond⟩).imp ?_
      rintro v each ⟨hv, hwalk⟩
      obtain ⟨texts, rfl, -⟩ := exists_texts_of_walk hfinds (fun _ ht => ht) hv hwalk
      have hpushed : chain.map Value.str ++ [.str v] = (chain ++ [v]).map .str := by simp
      exact ⟨texts, rfl, ih hv (hpushed ▸ hwalk) q⟩
    obtain ⟨more, hmore, hsum⟩ :=
      exists_sum_encard (fun v => encard_staysOutside (chain ++ [v]) v q) heach
    have htexts : texts = next.filter (· ∉ chain) ++ more := by
      rw [hmore, ← List.map_append] at hall
      exact List.map_injective_iff.mpr (fun _ _ => Value.str.inj) hall
    rw [toursOutside_eq_choices hevery, encard_choices, sum_encard_filter, hsum, htexts,
      List.count_append, Nat.cast_add]

/-- A walk along the undirected graph that finds only texts of a stock, has fuel for a chain of
all of them and never fails to look one up gives a list. -/
theorem exists_propagate_undirected {domain : String → Prop}
    (hfinds : g.Finds .undirected domain fun t =>
      domain t ∧ t ∈ EdgeMap.mentioned (g.view .undirected))
    (hedges : ∀ u, domain u → ∃ found, g.edges (ofText u) .undirected = .ok found) {p : String}
    (hp : domain p) : ∃ texts : List String,
      g.propagate .undirected (.str p) = .ok (texts.map .str) := by
  cases h : g.propagate .undirected (.str p) with
  | ok all =>
    obtain ⟨texts, rfl, -⟩ := exists_texts_of_walk hfinds (fun _ ht => ht.1) hp h
    exact ⟨texts, rfl⟩
  | error err =>
    have hfuel : (EdgeMap.mentioned (g.view .undirected)).length + 1 <
        g.chainBound .undirected + [Value.str p].length := by
      have hweight := EdgeMap.length_mentioned_le (g.view .undirected)
      rw [chainBound, List.length_singleton]
      omega
    rcases exists_call_of_walk_eq_error .first h with rfl | ⟨chain, path, hcall, hsteps⟩
    · exact absurd h (walk_of_call hfinds hp .first hfuel).1
    · obtain ⟨rest, last, rfl, rfl, hlast, -⟩ := hcall.exists_chain hfinds hp
      obtain ⟨found, hfound⟩ := hedges last hlast
      obtain ⟨texts, rfl, -⟩ := hfinds last hlast found hfound
      cases hsteps.symm.trans (steps_undirected hfound (p :: rest))

end Graph

/-! ## Propagation -/

namespace Engine

open RuleTree.Path Rules

variable {rules : Value} {settings : Settings} {e : Engine}

/-- Propagation in the undirected graph gives a list without its start, in which every path
stands as often as there are tours to it that come to no path twice. -/
theorem propagate_undirected_tours (he : ofRules rules settings = .ok e)
    (hkeys : ∀ key ∈ groupKeys rules, Throughout Legible key)
    (hpaths : ∀ p ∈ askedPaths rules, Throughout Legible p) {p : String}
    (hp : Throughout Legible p) : ∃ texts : List String,
      e.propagate (.str p) .undirected = .ok (texts.map .str) ∧ p ∉ texts ∧ ∀ q,
        {positions | ∃ stops, e.graph.Tour .undirected p positions stops ∧
          (p :: stops).Nodup ∧ stops.getLast? = some q}.encard = texts.count q := by
  obtain ⟨-, -, hg⟩ := ofRules_eq_ok he
  have hconsists : Consists Legible rules := ⟨admissible_legible, hkeys, hpaths⟩
  have hfinds := Graph.finds_walkable hconsists hg .undirected
  have hedges : ∀ u, Walkable Legible u →
      ∃ found, e.graph.edges (ofText u) .undirected = .ok found :=
    fun u hu => Graph.exists_edges e.graph .undirected hu
  obtain ⟨texts, hwalk⟩ := Graph.exists_propagate_undirected hfinds hedges (Or.inl hp)
  have hcount : ∀ q, (e.graph.toursOutside .undirected [p] p q).encard = texts.count q :=
    Graph.encard_toursOutside (hfinds.mono fun _ ht => ht.1) (Or.inl hp) hwalk
  refine ⟨texts, by rw [propagate, hwalk]; rfl, fun hmem => ?_, fun q => ?_⟩
  · have hzero := hcount p
    rw [Graph.toursOutside_eq_empty (List.mem_singleton_self p), Set.encard_empty] at hzero
    have hpos : 0 < texts.count p := List.count_pos_iff.mpr hmem
    exact hpos.ne (by exact_mod_cast hzero)
  · rw [← hcount q]
    refine congrArg Set.encard (Set.ext fun positions => exists_congr fun stops => ?_)
    have hout : (∀ s ∈ stops, s ∉ [p]) ↔ p ∉ stops := by
      simp only [List.mem_singleton]
      exact ⟨fun h hp => h p hp rfl, fun h s hs heq => h (heq ▸ hs)⟩
    rw [List.nodup_cons, hout]
    tauto

/-- From the root two simple tours end at the sink. -/
theorem propagate_undirected_tours_of_forkedReads : ∃ e, ofRules forkedReads .standard = .ok e ∧
    e.propagate (.str "root") .undirected =
      .ok (["left", "right", "sink", "right", "sink", "left"].map .str) ∧
    {positions | ∃ stops, e.graph.Tour .undirected "root" positions stops ∧
      ("root" :: stops).Nodup ∧ stops.getLast? = some "sink"}.encard = 2 := by
  obtain ⟨e, he⟩ : ∃ e, ofRules forkedReads .standard = .ok e := ⟨_, rfl⟩
  have hall : e.propagate (.str "root") .undirected =
      .ok (["left", "right", "sink", "right", "sink", "left"].map .str) := by
    obtain rfl := Except.ok.inj he
    rfl
  obtain ⟨texts, htexts, -, hcount⟩ :=
    propagate_undirected_tours he (by decide) (by decide) (by decide : Throughout Legible "root")
  obtain rfl := List.map_injective_iff.mpr (fun _ _ => Value.str.inj)
    (Except.ok.inj (hall.symm.trans htexts))
  exact ⟨e, he, hall, hcount "sink"⟩

end Engine

end RuleTree
