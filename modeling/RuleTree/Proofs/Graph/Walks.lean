import RuleTree.Proofs.Graph.Lookups
import Mathlib.Data.Set.Card
import Mathlib.Logic.Relation
/-!
# Walks

A walk looks up a path, goes on from each edge found with a longer chain, and lists the edges
before what lies beyond them (`Graph.of_walk_eq_ok`); if it fails, a look-up or a walk further
on failed (`Graph.of_walk_eq_error`). In a directed graph the chain decides only whether the
walk fails (`Graph.walk_mono`). `Graph.Trail` tells a way along edges by the positions of the
edges taken : a walk lists the end of every trail once (`Graph.encard_trails`).
-/

namespace RuleTree.Graph

open RuleTree.Path

variable {g : Graph} {direction : Direction} {chain : List Value} {err : PropagationError}

/-! ## Steps -/

/-- A look-up at one path finds the other. -/
def Leads (g : Graph) (direction : Direction) (u v : String) : Prop :=
  ∃ found, g.edges (ofText u) direction = .ok found ∧ .str v ∈ found

theorem Leads.mem {u v : String} (h : g.Leads direction u v) {found : List Value}
    (hfound : g.edges (ofText u) direction = .ok found) : .str v ∈ found := by
  obtain ⟨found', hfound', hv⟩ := h
  obtain rfl := Except.ok.inj (hfound'.symm.trans hfound)
  exact hv

theorem inChain_append (chain : List Value) (v w : Value) :
    inChain (chain ++ [v]) w = (inChain chain w || w.sameContent v) := by
  simp [inChain]

/-- A chain of texts holds a text exactly if it is one of them. -/
theorem inChain_texts {texts : List String} {t : String} :
    inChain (texts.map .str) (.str t) = true ↔ t ∈ texts := by
  rw [inChain, List.any_eq_true]
  constructor
  · rintro ⟨v, hv, hsame⟩
    obtain ⟨t', ht', rfl⟩ := List.mem_map.mp hv
    exact of_decide_eq_true hsame ▸ ht'
  · intro ht
    exact ⟨.str t, List.mem_map.mpr ⟨t, ht, rfl⟩, decide_eq_true rfl⟩

/-- A step from a path looks its edges up. -/
theorem steps_eq {path : Value} {segments : Path} (hp : Path.ofValue path = .ok segments) :
    steps g direction chain path = do
      let found ← (g.edges segments direction).mapError fun _ => .malformedIndex
      match direction with
      | .undirected => return found.filter fun edge => !inChain chain edge
      | _ =>
        match found.find? (inChain chain) with
        | some edge => throw (cycleError chain edge)
        | none => return found := by
  rw [steps, hp]
  rfl

/-- The edges of a path that are walked on along are among those that a look-up finds. -/
theorem exists_edges_of_steps {u : String} {found : List Value}
    (h : steps g direction chain (.str u) = .ok found) :
    ∃ all, g.edges (ofText u) direction = .ok all ∧ found ⊆ all := by
  rw [steps_eq rfl] at h
  obtain ⟨all, hall, h⟩ := exists_of_bind_eq_ok h
  refine ⟨all, of_mapError_eq_ok hall, ?_⟩
  cases direction with
  | undirected =>
    obtain rfl := Except.ok.inj h
    exact List.filter_subset_self _
  | forward | backward =>
    cases hc : all.find? (inChain chain) with
    | some edge =>
      simp only [hc] at h
      cases h
    | none =>
      simp only [hc] at h
      exact Except.ok.inj h ▸ List.Subset.refl _

section Directed

variable (hd : direction ≠ .undirected)
include hd

/-- In a directed graph a step takes all edges, or fails if one leads back. -/
theorem steps_of_edges {path : Value} {segments : Path} {found : List Value}
    (hp : Path.ofValue path = .ok segments) (he : g.edges segments direction = .ok found) :
    steps g direction chain path = match found.find? (inChain chain) with
      | some edge => .error (cycleError chain edge)
      | none => .ok found := by
  rw [steps_eq hp, he]
  cases direction with
  | undirected => exact absurd rfl hd
  | forward | backward => rfl

/-- The steps from a path are its edges, if it is a path at all and none of them leads back into the
chain. -/
theorem steps_eq_ok_iff {path : Value} {found : List Value} :
    steps g direction chain path = .ok found ↔
      ∃ segments, Path.ofValue path = .ok segments ∧ g.edges segments direction = .ok found ∧
        ∀ v ∈ found, inChain chain v = false := by
  constructor
  · intro h
    cases hp : Path.ofValue path with
    | error reason =>
      rw [steps, hp] at h
      cases h
    | ok segments =>
      cases he : g.edges segments direction with
      | error m =>
        rw [steps_eq hp, he] at h
        cases h
      | ok all =>
        rw [steps_of_edges hd hp he] at h
        cases hc : all.find? (inChain chain) with
        | some edge =>
          rw [hc] at h
          cases h
        | none =>
          rw [hc] at h
          obtain rfl := Except.ok.inj h
          refine ⟨segments, rfl, he, fun v hv => ?_⟩
          simpa using List.find?_eq_none.mp hc v hv
  · rintro ⟨segments, hp, he, hchain⟩
    have hnone : found.find? (inChain chain) = none :=
      List.find?_eq_none.mpr fun v hv => by simp [hchain v hv]
    rw [steps_of_edges hd hp he, hnone]

/-- A step fails with its look-up, or at an edge that leads back into the chain. -/
theorem of_steps_eq_error {u : String} (h : steps g direction chain (.str u) = .error err) :
    (∃ m, g.edges (ofText u) direction = .error m) ∨
      ∃ found v, g.edges (ofText u) direction = .ok found ∧ v ∈ found ∧
        inChain chain v = true ∧ err = cycleError chain v := by
  cases he : g.edges (ofText u) direction with
  | error m => exact Or.inl ⟨m, rfl⟩
  | ok found =>
    rw [steps_of_edges hd rfl he] at h
    cases hc : found.find? (inChain chain) with
    | none =>
      rw [hc] at h
      cases h
    | some v =>
      rw [hc] at h
      exact Or.inr ⟨found, v, rfl, List.mem_of_find?_eq_some hc, List.find?_some hc,
        (Except.error.inj h).symm⟩

end Directed

/-! ## Walks -/

/-- A walk that succeeds lists the edges it goes on along and then what lies beyond each. -/
theorem of_walk_eq_ok {fuel : Nat} {path : Value} {all : List Value}
    (h : walk g direction fuel chain path = .ok all) : ∃ rest found beyond, fuel = rest + 1 ∧
      steps g direction chain path = .ok found ∧
      List.Forall₂ (fun v each => walk g direction rest (chain ++ [v]) v = .ok each)
        found beyond ∧
      all = found ++ beyond.flatten := by
  cases fuel with
  | zero => cases h
  | succ rest =>
    unfold walk at h
    obtain ⟨found, hfound, h⟩ := exists_of_bind_eq_ok h
    obtain ⟨beyond, hbeyond, h⟩ := exists_of_bind_eq_ok h
    exact ⟨rest, found, beyond, rfl, hfound, forall₂_of_mapM_eq_ok hbeyond,
      (Except.ok.inj h).symm⟩

/-- A walk along a directed graph goes on from all edges found, none of which is in its chain. -/
theorem of_walk_text_eq_ok (hd : direction ≠ .undirected) {fuel : Nat} {u : String}
    {all : List Value} (h : walk g direction fuel chain (.str u) = .ok all) :
    ∃ rest found beyond, fuel = rest + 1 ∧ g.edges (ofText u) direction = .ok found ∧
      (∀ v ∈ found, inChain chain v = false) ∧
      List.Forall₂ (fun v each => walk g direction rest (chain ++ [v]) v = .ok each)
        found beyond ∧
      all = found ++ beyond.flatten := by
  obtain ⟨rest, found, beyond, hrest, hsteps, hbeyond, hall⟩ := of_walk_eq_ok h
  obtain ⟨segments, hp, he, hnew⟩ := (steps_eq_ok_iff hd).mp hsteps
  obtain rfl := Except.ok.inj hp
  exact ⟨rest, found, beyond, hrest, he, hnew, hbeyond, hall⟩

/-- A walk lists what a path leads to, and behind it what each of these leads to. -/
theorem walk_eq_ok {fuel : Nat} {path : Value} {found : List Value} {beyond : List (List Value)}
    (hfound : steps g direction chain path = .ok found)
    (hbeyond : List.Forall₂ (fun v each => walk g direction fuel (chain ++ [v]) v = .ok each)
      found beyond) : walk g direction (fuel + 1) chain path = .ok (found ++ beyond.flatten) := by
  rw [walk, hfound]
  show (found.mapM fun v => walk g direction fuel (chain ++ [v]) v) >>= _ = _
  rw [mapM_eq_ok_of_forall₂ hbeyond]
  rfl

/-- A walk that fails with fuel left fails at its step or beyond one of the edges. -/
theorem of_walk_eq_error {fuel : Nat} {path : Value}
    (h : walk g direction (fuel + 1) chain path = .error err) :
    steps g direction chain path = .error err ∨
      ∃ found v, steps g direction chain path = .ok found ∧ v ∈ found ∧
        walk g direction fuel (chain ++ [v]) v = .error err := by
  unfold walk at h
  rcases of_bind_eq_error h with hsteps | ⟨found, hfound, h⟩
  · exact Or.inl hsteps
  · rcases of_bind_eq_error h with hbeyond | ⟨beyond, -, h⟩
    · obtain ⟨v, hv, hwalk⟩ := exists_mem_of_mapM_eq_error hbeyond
      exact Or.inr ⟨found, v, hfound, hv, hwalk⟩
    · cases h

/-- A shorter chain and more fuel do not change what a walk along a directed graph lists. -/
theorem walk_mono (hd : direction ≠ .undirected) : ∀ {fuel fuel' : Nat}
    {chain chain' : List Value} {path : Value} {all : List Value}, fuel ≤ fuel' →
      (∀ v, inChain chain' v = true → inChain chain v = true) →
        walk g direction fuel chain path = .ok all → walk g direction fuel' chain' path = .ok all
  | 0, _, _, _, _, _, _, _, h => by cases h
  | fuel + 1, 0, _, _, _, _, hle, _, _ => absurd hle (by omega)
  | fuel + 1, fuel' + 1, chain, chain', path, all, hle, hchain, h => by
    obtain ⟨rest, found, beyond, hrest, hsteps, hbeyond, rfl⟩ := of_walk_eq_ok h
    obtain rfl := Nat.succ.inj hrest
    obtain ⟨segments, hp, he, hno⟩ := (steps_eq_ok_iff hd).mp hsteps
    have hsteps' : steps g direction chain' path = .ok found := by
      refine (steps_eq_ok_iff hd).mpr ⟨segments, hp, he, fun v hv => ?_⟩
      exact Bool.eq_false_iff.mpr fun hin => absurd (hchain v hin) (by simp [hno v hv])
    refine walk_eq_ok hsteps' (hbeyond.imp fun v each hwalk => ?_)
    refine walk_mono hd (Nat.le_of_succ_le_succ hle) (fun w hw => ?_) hwalk
    rw [inChain_append, Bool.or_eq_true] at hw ⊢
    exact hw.imp_left (hchain w)

/-- What holds of all that look-ups find holds of all that a walk lists. -/
theorem exists_texts_of_walk {domain property : String → Prop}
    (hfinds : g.Finds direction domain property) (hsub : ∀ t, property t → domain t) :
    ∀ {fuel : Nat} {chain : List Value} {u : String} {all : List Value}, domain u →
      walk g direction fuel chain (.str u) = .ok all →
        ∃ texts : List String, all = texts.map .str ∧ ∀ t ∈ texts, property t := by
  intro fuel
  induction fuel with
  | zero =>
    intro chain u all _ h
    cases h
  | succ fuel ih =>
    intro chain u all hu h
    obtain ⟨rest, found, beyond, hrest, hsteps, hbeyond, rfl⟩ := of_walk_eq_ok h
    obtain rfl := Nat.succ.inj hrest
    obtain ⟨every, hevery, hsubset⟩ := exists_edges_of_steps hsteps
    obtain ⟨texts, rfl, htexts⟩ := hfinds u hu every hevery
    refine exists_texts fun x hx => ?_
    rcases List.mem_append.mp hx with hx | hx
    · obtain ⟨t, ht, rfl⟩ := List.mem_map.mp (hsubset hx)
      exact ⟨t, rfl, htexts t ht⟩
    · obtain ⟨each, heach, hx⟩ := List.mem_flatten.mp hx
      obtain ⟨v, hv, hwalk⟩ := exists_mem_left_of_forall₂ hbeyond heach
      obtain ⟨t, ht, rfl⟩ := List.mem_map.mp (hsubset hv)
      obtain ⟨more, rfl, hmore⟩ := ih (hsub t (htexts t ht)) hwalk
      obtain ⟨t', ht', rfl⟩ := List.mem_map.mp hx
      exact ⟨t', rfl, hmore t' ht'⟩

/-! ## Trails -/

/-- A way along edges, told by the position of each edge among those found where it is
taken. -/
inductive Trail (g : Graph) (direction : Direction) : String → List Nat → String → Prop
  | here (u : String) : Trail g direction u [] u
  | step {u v w : String} {found : List Value} {n : Nat} {positions : List Nat}
    (edges : g.edges (ofText u) direction = .ok found) (taken : found[n]? = some (.str v))
    (rest : Trail g direction v positions w) : Trail g direction u (n :: positions) w

variable {u v q : String}

/-- The trails from a path that start with an edge, by the position of the edge. -/
theorem trail_ne_nil_iff {texts : List String}
    (he : g.edges (ofText u) direction = .ok (texts.map .str)) {positions : List Nat} :
    positions ≠ [] ∧ Trail g direction u positions q ↔
      ∃ n v rest, texts[n]? = some v ∧ Trail g direction v rest q ∧ positions = n :: rest := by
  constructor
  · rintro ⟨hne, htrail⟩
    cases htrail with
    | here => exact absurd rfl hne
    | @step _ v _ found n rest edges taken htrail =>
      obtain rfl := Except.ok.inj (he.symm.trans edges)
      rw [List.getElem?_map] at taken
      obtain ⟨v', hv, heq⟩ := Option.map_eq_some_iff.mp taken
      obtain rfl := Value.str.inj heq
      exact ⟨n, v', rest, hv, htrail, rfl⟩
  · rintro ⟨n, v, rest, hv, htrail, rfl⟩
    exact ⟨List.cons_ne_nil _ _, .step he (by rw [List.getElem?_map, hv]; rfl) htrail⟩

/-- Sequences of positions of which the first one chooses an item and the rest belongs to what
the item has. -/
def Choices (texts : List String) (T : String → Set (List Nat)) : Set (List Nat) :=
  {positions | ∃ n v rest, texts[n]? = some v ∧ rest ∈ T v ∧ positions = n :: rest}

/-- Move the first position on by one. -/
def shift : List Nat → List Nat
  | [] => []
  | n :: rest => (n + 1) :: rest

theorem shift_injective : Function.Injective shift
  | [], [], _ => rfl
  | n :: rest, m :: rest', h => by
    obtain ⟨hn, rfl⟩ := List.cons.inj h
    rw [Nat.succ.inj hn]

/-- A choice of one of several texts is one of the first or one of the others. -/
theorem choices_cons (t : String) (texts : List String) (T : String → Set (List Nat)) :
    Choices (t :: texts) T = List.cons 0 '' T t ∪ shift '' Choices texts T := by
  ext positions
  constructor
  · rintro ⟨n, v, rest, hv, hrest, rfl⟩
    cases n with
    | zero =>
      obtain rfl := Option.some.inj hv
      exact Or.inl ⟨rest, hrest, rfl⟩
    | succ n => exact Or.inr ⟨n :: rest, ⟨n, v, rest, hv, hrest, rfl⟩, rfl⟩
  · rintro (⟨rest, hrest, rfl⟩ | ⟨_, ⟨n, v, rest, hv, hrest, rfl⟩, rfl⟩)
    · exact ⟨0, t, rest, rfl, hrest, rfl⟩
    · exact ⟨n + 1, v, rest, hv, hrest, rfl⟩

/-- The number of choices is the sum over the items. -/
theorem encard_choices (texts : List String) (T : String → Set (List Nat)) :
    (Choices texts T).encard = (texts.map fun v => (T v).encard).sum := by
  induction texts with
  | nil =>
    have hempty : Choices [] T = ∅ := by
      ext positions
      simp [Choices]
    rw [hempty, Set.encard_empty]
    rfl
  | cons t texts ih =>
    have hdisjoint : Disjoint (List.cons 0 '' T t) (shift '' Choices texts T) := by
      rw [Set.disjoint_left]
      rintro _ ⟨rest, -, rfl⟩ ⟨_, ⟨n, v, rest', -, -, rfl⟩, h⟩
      exact absurd (List.cons.inj h).1 (Nat.succ_ne_zero n)
    rw [choices_cons, Set.encard_union_eq hdisjoint, (List.cons_injective).encard_image,
      shift_injective.encard_image, ih, List.map_cons, List.sum_cons]

/-- A trail from a path goes nowhere or starts with an edge. -/
theorem encard_trail (u q : String) : {positions | Trail g direction u positions q}.encard =
    (if u = q then 1 else 0) +
      {positions | positions ≠ [] ∧ Trail g direction u positions q}.encard := by
  by_cases hu : u = q
  · subst hu
    have hset : {positions | Trail g direction u positions u} =
        insert [] {positions | positions ≠ [] ∧ Trail g direction u positions u} := by
      ext positions
      by_cases hp : positions = []
      · simp [hp, Trail.here]
      · simp [hp]
    rw [hset, Set.encard_insert_of_notMem (by simp), if_pos rfl, add_comm]
  · have hset : {positions | Trail g direction u positions q} =
        {positions | positions ≠ [] ∧ Trail g direction u positions q} := by
      ext positions
      refine ⟨fun h => ⟨?_, h⟩, fun h => h.2⟩
      rintro rfl
      cases h
      exact hu rfl
    rw [hset, if_neg hu, zero_add]

/-- The ways from some paths are as many as the paths and what lies beyond them together, if a
way from a path goes nowhere or beyond it. -/
theorem exists_sum_encard {T T' : String → Set (List Nat)}
    (hT : ∀ v, (T v).encard = (if v = q then 1 else 0) + (T' v).encard) {next : List String}
    {beyond : List (List Value)} (h : List.Forall₂ (fun v each => ∃ texts : List String,
      each = texts.map .str ∧ (T' v).encard = texts.count q) next beyond) :
    ∃ more : List String, beyond.flatten = more.map .str ∧
      (next.map fun v => (T v).encard).sum = next.count q + more.count q := by
  induction h with
  | nil => exact ⟨[], rfl, by simp⟩
  | @cons v _ next _ hv _ ih =>
    obtain ⟨texts, rfl, htexts⟩ := hv
    obtain ⟨more, hmore, hsum⟩ := ih
    refine ⟨texts ++ more, by simp [hmore], ?_⟩
    rw [List.map_cons, List.sum_cons, hT, htexts, hsum, List.count_cons, List.count_append]
    by_cases hq : v = q <;> simp only [hq, if_true, if_false, beq_iff_eq, Nat.cast_add,
      Nat.cast_one, Nat.cast_zero] <;> ac_rfl

/-- A walk along a directed graph lists the end of every trail that starts with an edge, once
for each such trail. -/
theorem encard_trails (hd : direction ≠ .undirected) {domain : String → Prop}
    (hfinds : g.Finds direction domain domain) : ∀ {fuel : Nat} {chain : List Value} {u : String}
      {texts : List String}, domain u →
        walk g direction fuel chain (.str u) = .ok (texts.map .str) → ∀ q,
          {positions | positions ≠ [] ∧ Trail g direction u positions q}.encard =
            texts.count q := by
  intro fuel
  induction fuel with
  | zero =>
    intro chain u texts _ h
    cases h
  | succ fuel ih =>
    intro chain u texts hu h q
    obtain ⟨rest, found, beyond, hrest, he, -, hbeyond, hall⟩ := of_walk_text_eq_ok hd h
    obtain rfl := Nat.succ.inj hrest
    obtain ⟨next, rfl, hnext⟩ := hfinds u hu found he
    have heach : List.Forall₂ (fun v each => ∃ texts : List String, each = texts.map .str ∧
        {positions | positions ≠ [] ∧ Trail g direction v positions q}.encard = texts.count q)
        next beyond := by
      rw [List.forall₂_map_left_iff] at hbeyond
      refine ((List.forall₂_and_left next beyond).mpr ⟨hnext, hbeyond⟩).imp ?_
      rintro v each ⟨hv, hwalk⟩
      obtain ⟨texts, rfl, -⟩ := exists_texts_of_walk hfinds (fun _ ht => ht) hv hwalk
      exact ⟨texts, rfl, ih hv hwalk q⟩
    obtain ⟨more, hmore, hsum⟩ := exists_sum_encard (fun v => encard_trail v q) heach
    have htexts : texts = next ++ more := by
      rw [hmore, ← List.map_append] at hall
      exact List.map_injective_iff.mpr (fun _ _ => Value.str.inj) hall
    have hchoices : {positions | positions ≠ [] ∧ Trail g direction u positions q} =
        Choices next fun v => {positions | Trail g direction v positions q} := by
      ext positions
      exact trail_ne_nil_iff he
    rw [hchoices, encard_choices, hsum, htexts, List.count_append, Nat.cast_add]

end RuleTree.Graph
