import RuleTree.Proofs.Graph.Readers
/-!
# Flat rules

The expressions of flat rules all stand under keys of the rule tree itself and read single
segments. So a look-up forward or back finds the edges recorded at the path
(`Graph.edges_directed`). In the undirected graph such a path leads to its readers, and to what
it reads only if nothing reads it (`Graph.leads_undirected_iff`). So the paths that lead to each
other are the same in both directions exactly if a rule that is read reads nothing but its own
readers (`Graph.undirected_symm_iff`).
-/

namespace RuleTree

/-! ## Maps with entries put over them -/

namespace Entries

variable {α : Type} {key : String}

/-- Entries with distinct keys, put over others, hide those under the same keys. -/
theorem get?_putAll : ∀ {upper base : List (String × α)}, (keys upper).Nodup →
    get? key (upper.foldl (fun m (k, v) => put k v m) base) = (get? key upper).or (get? key base)
  | [], base, _ => rfl
  | (k, v) :: rest, base, hn => by
    obtain ⟨hk, hrest⟩ := List.nodup_cons.mp hn
    rw [List.foldl_cons, get?_putAll hrest, get?]
    by_cases hkey : k = key
    · subst hkey
      have hnone : get? k rest = none := by
        refine Option.eq_none_iff_forall_ne_some.mpr fun w hw => ?_
        exact hk (key_mem_of_mem (mem_of_get? hw))
      rw [hnone, get?_put_self, if_pos rfl]
      rfl
    · rw [get?_put_of_ne (Ne.symm hkey), if_neg hkey]

end Entries

namespace EdgeMap

/-! ## Edge maps of single segments -/

/-- Every path is a single segment. -/
def SinglePaths (pairs : List (Path × String)) : Prop := ∀ e ∈ pairs, ∃ s, e.1 = [s]

theorem addHere_ofTexts? (edge : String) (texts : List String) :
    addHere edge (ofTexts? texts) = .ofTexts (texts ++ [edge]) := by
  rw [← merge_ofTexts?]
  cases texts <;> rfl

/-- Under a key stand the edges inserted there. -/
theorem get?_build {pairs : List (Path × String)} (h : SinglePaths pairs) (key : String) :
    Entries.get? key (build pairs) = ofTexts? (edgesAt [key] pairs) := by
  refine lookup_build rfl fun e he entries old hold => ?_
  obtain ⟨s, hs⟩ := h e he
  rw [hs, insert]
  by_cases hkey : key = s
  · subst hkey
    rw [Entries.get?_put_self, hold, addHere_ofTexts?, if_pos rfl, ofTexts?_of_ne_nil (by simp)]
  · rw [Entries.get?_put_of_ne hkey, if_neg (by simpa using hkey), hold]

theorem mem_edgesAt {path : Path} {edge : String} {pairs : List (Path × String)} :
    edge ∈ edgesAt path pairs ↔ (path, edge) ∈ pairs := by
  simp [edgesAt]

end EdgeMap

/-! ## Flat rules -/

namespace Path

/-- A plain segment that is not the wildcard. -/
def Simple (s : String) : Prop := Plain s ∧ s ≠ wildcard

instance : DecidablePred Simple := fun _ => inferInstanceAs (Decidable (_ ∧ _))

theorem Simple.ofText {s : String} (h : Simple s) : Path.ofText s = [s] :=
  ofText_of_dotless h.1.2

end Path

namespace Rules

open RuleTree.Path

/-- Rules whose expressions stand under simple keys of the tree itself and read simple
segments. -/
structure Flat (rules : Value) : Prop where
  /-- The rule tree is no expression itself. -/
  group : rules.isExpression = false
  /-- The address of every expression is a single key. -/
  single : ∀ entry ∈ expressions rules, ∃ key, entry.1 = [key] ∧ Simple key
  /-- Every path asked for is a single segment. -/
  paths : ∀ p ∈ askedPaths rules, Simple p

namespace Flat

variable {rules : Value} {p r : String}

/-- What reads and what is read are simple. -/
theorem simple_of_reads (h : Flat rules) (hread : Reads rules p r) : Simple p ∧ Simple r := by
  obtain ⟨address, e, he, hp, rfl⟩ := hread
  obtain ⟨key, rfl, hkey⟩ := h.single _ he
  refine ⟨h.paths p (mem_askedPaths_iff.mpr ⟨_, e, mem_expressions_iff.mp he, hp⟩), ?_⟩
  rw [addressText_of_plain (by simpa using hkey.1)]
  simpa [text] using hkey

/-- An edge is recorded for each path that a rule reads. -/
theorem mem_recorded_iff (h : Flat rules) {edge : Edge} :
    edge ∈ recorded rules ↔ ∃ p r, Reads rules p r ∧ edge = ⟨[r], [p]⟩ := by
  rw [mem_recorded]
  constructor
  · rintro ⟨address, e, p, hs, hp, rfl⟩
    have he := mem_expressions_iff.mpr hs
    obtain ⟨key, rfl, hkey⟩ := h.single _ he
    have hpath := h.paths p (mem_askedPaths_iff.mpr ⟨_, e, hs, hp⟩)
    have haddress : addressText [key] = key := by
      rw [addressText_of_plain (by simpa using hkey.1)]
      simp [text]
    exact ⟨p, key, ⟨_, e, he, hp, haddress⟩, by simp [hpath.ofText]⟩
  · rintro ⟨p, r, hread, rfl⟩
    obtain ⟨hpath, -⟩ := h.simple_of_reads hread
    obtain ⟨address, e, he, hp, rfl⟩ := hread
    obtain ⟨key, rfl, hkey⟩ := h.single _ he
    refine ⟨[key], e, p, mem_expressions_iff.mp he, hp, ?_⟩
    rw [addressText_of_plain (by simpa using hkey.1)]
    simp [text, hpath.ofText]

end Flat

end Rules

/-! ## Look-ups -/

namespace Graph

open EdgeMap Rules RuleTree.Path

variable {rules : Value} {g : Graph} {u v : String}

/-- By their readers, the edges of flat rules are the reads. -/
theorem mem_byReader (h : Flat rules) :
    ([u], v) ∈ byReader (recorded rules) ↔ Reads rules v u := by
  rw [byReader, List.mem_map]
  constructor
  · rintro ⟨edge, hedge, heq⟩
    obtain ⟨p, r, hread, rfl⟩ := h.mem_recorded_iff.mp hedge
    obtain ⟨rfl, rfl⟩ : r = u ∧ p = v := by simpa [text] using heq
    exact hread
  · intro hread
    exact ⟨⟨[u], [v]⟩, h.mem_recorded_iff.mpr ⟨v, u, hread, rfl⟩, by simp [text]⟩

/-- By what is read, the edges of flat rules are the reads the other way round. -/
theorem mem_byTarget (h : Flat rules) :
    ([u], v) ∈ byTarget (recorded rules) ↔ Reads rules u v := by
  rw [byTarget, List.mem_map]
  constructor
  · rintro ⟨edge, hedge, heq⟩
    obtain ⟨p, r, hread, rfl⟩ := h.mem_recorded_iff.mp hedge
    obtain ⟨rfl, rfl⟩ : p = u ∧ r = v := by simpa [text] using heq
    exact hread
  · intro hread
    exact ⟨⟨[v], [u]⟩, h.mem_recorded_iff.mpr ⟨u, v, hread, rfl⟩, by simp [text]⟩

/-- A map built of the edges of flat rules has an edge set under each key. -/
theorem singlePaths_of_flat (h : Flat rules) :
    SinglePaths (byReader (recorded rules)) ∧ SinglePaths (byTarget (recorded rules)) := by
  constructor <;> intro pair hpair <;> obtain ⟨edge, hedge, rfl⟩ := List.mem_map.mp hpair <;>
    obtain ⟨p, r, -, rfl⟩ := h.mem_recorded_iff.mp hedge
  · exact ⟨r, rfl⟩
  · exact ⟨p, rfl⟩

/-- A look-up at a simple path finds the texts under it. -/
theorem edges_of_child? (hu : Simple u) {direction : Direction} {texts : List String}
    (h : (g.view direction).child? u = .ok (ofTexts? texts)) :
    g.edges (ofText u) direction = .ok (texts.map .str) := by
  have hscalar : (g.view direction).isScalar = false := by
    cases direction <;> rfl
  rw [edges, hu.ofText, Value.read_cons hscalar hu.2, h]
  cases texts <;> rfl

/-- Look-ups in the directed graphs of flat rules. -/
theorem edges_directed (h : Flat rules) (hg : ofRules rules = .ok g) (hu : Simple u) :
    g.edges (ofText u) .forward =
        .ok ((EdgeMap.edgesAt [u] (byReader (recorded rules))).map .str) ∧
      g.edges (ofText u) .backward =
        .ok ((EdgeMap.edgesAt [u] (byTarget (recorded rules))).map .str) := by
  obtain ⟨hreaders, htargets⟩ := singlePaths_of_flat h
  constructor <;> refine edges_of_child? hu ?_ <;> rw [ofRules_eq h.group hg]
  · exact congrArg _ (get?_build hreaders u)
  · exact congrArg _ (get?_build htargets u)

/-! ## The undirected graph -/

/-- The paths that a path leads to in the undirected graph : its readers, and what it reads if
nothing reads it. -/
def neighbours (rules : Value) (u : String) : List String :=
  let readers := EdgeMap.edgesAt [u] (byTarget (recorded rules))
  if readers = [] then EdgeMap.edgesAt [u] (byReader (recorded rules)) else readers

/-- Look-ups in the undirected graph of flat rules. -/
theorem edges_undirected (h : Flat rules) (hg : ofRules rules = .ok g) (hu : Simple u) :
    g.edges (ofText u) .undirected = .ok ((neighbours rules u).map .str) := by
  obtain ⟨hreaders, htargets⟩ := singlePaths_of_flat h
  have hkeys : (Entries.keys (build (byTarget (recorded rules)))).Nodup :=
    (Value.distinctKeys_map (distinctKeys_build _)).1
  have hentry : Entries.get? u g.undirected = ofTexts? (neighbours rules u) := by
    rw [ofRules_eq h.group hg, undirected, Entries.get?_putAll hkeys,
      get?_build htargets, get?_build hreaders, neighbours]
    cases EdgeMap.edgesAt [u] (byTarget (recorded rules)) <;> rfl
  refine edges_of_child? hu ?_
  rw [← hentry]
  rfl

/-- A path leads to its readers if it has some, and else to what it reads. -/
theorem leads_undirected_iff (h : Flat rules) (hg : ofRules rules = .ok g) (hu : Simple u) :
    g.Leads .undirected u v ↔
      Reads rules u v ∨ (∀ r, ¬ Reads rules u r) ∧ Reads rules v u := by
  have hleads : g.Leads .undirected u v ↔ v ∈ neighbours rules u := by
    rw [Leads, edges_undirected h hg hu]
    simp
  have hreaders : EdgeMap.edgesAt [u] (byTarget (recorded rules)) = [] ↔
      ∀ r, ¬ Reads rules u r := by
    rw [List.eq_nil_iff_forall_not_mem]
    refine forall_congr' fun r => not_congr ?_
    rw [mem_edgesAt, mem_byTarget h]
  rw [hleads, neighbours]
  split
  · next hnone =>
    have hunread := hreaders.mp hnone
    rw [mem_edgesAt, mem_byReader h]
    exact ⟨fun hv => Or.inr ⟨hunread, hv⟩,
      fun hv => hv.elim (fun hr => absurd hr (hunread v)) And.right⟩
  · next hsome =>
    rw [mem_edgesAt, mem_byTarget h]
    exact ⟨Or.inl, fun hv => hv.elim id fun hv => absurd (hreaders.mpr hv.1) hsome⟩

/-- Look-ups in the undirected graph of flat rules succeed, and the paths lead to each other in
both directions exactly if a rule that is read reads nothing but its own readers. -/
theorem undirected_symm_iff (h : Flat rules) (hg : ofRules rules = .ok g) :
    (∀ u, Simple u → ∃ texts : List String,
      g.edges (ofText u) .undirected = .ok (texts.map .str)) ∧
    ((∀ u v, Simple u → Simple v → (g.Leads .undirected u v ↔ g.Leads .undirected v u)) ↔
      ∀ p q r, Reads rules q p → Reads rules r q → Reads rules q r) := by
  refine ⟨fun u hu => ⟨_, edges_undirected h hg hu⟩, fun hsymm p q r hqp hrq => ?_, ?_⟩
  · -- q is read, so it leads to its readers only; r leads to q because q reads it
    obtain ⟨hr, hq⟩ := h.simple_of_reads hrq
    have hback := (hsymm r q hr hq).mp ((leads_undirected_iff h hg hr).mpr (Or.inl hrq))
    rcases (leads_undirected_iff h hg hq).mp hback with hread | ⟨hunread, -⟩
    · exact hread
    · exact absurd hqp (hunread p)
  · intro hmutual
    have hhalf : ∀ u v, Simple u → Simple v → g.Leads .undirected u v →
        g.Leads .undirected v u := by
      intro u v hu hv huv
      rw [leads_undirected_iff h hg hv]
      rcases (leads_undirected_iff h hg hu).mp huv with hread | ⟨-, hread⟩
      · by_cases hvread : ∃ w, Reads rules v w
        · obtain ⟨w, hw⟩ := hvread
          exact Or.inl (hmutual w v u hw hread)
        · exact Or.inr ⟨fun w hw => hvread ⟨w, hw⟩, hread⟩
      · exact Or.inl hread
    exact fun u v hu hv => ⟨hhalf u v hu hv, hhalf v u hv hu⟩

/-- A sum and a tax of two facts. -/
def incomeReads : Value := .ofEntries [
  ("total", .ofEntries [("+", .ofList [.ofEntries [("var", .str "income")],
    .ofEntries [("var", .str "bonus")]])]),
  ("tax", .ofEntries [("var", .str "income")])]

theorem flat_incomeReads : Flat incomeReads where
  group := rfl
  single := List.forall_mem_cons.mpr ⟨⟨"total", rfl, by decide⟩,
    List.forall_mem_singleton.mpr ⟨"tax", rfl, by decide⟩⟩
  paths := by decide

/-- Rules of which none is read have a symmetric graph. -/
theorem undirected_symm_of_incomeReads : ∃ g, ofRules incomeReads = .ok g ∧
    g.edges ["income"] .undirected = .ok (["total", "tax"].map .str) ∧
    ∀ u v, Simple u → Simple v → (g.Leads .undirected u v ↔ g.Leads .undirected v u) := by
  obtain ⟨g, hg⟩ : ∃ g, ofRules incomeReads = .ok g := ⟨_, rfl⟩
  have hunread : ∀ first ∈ byReader (recorded incomeReads),
      ∀ second ∈ byReader (recorded incomeReads), second.1 ≠ [first.2] := by decide
  refine ⟨g, hg, ?_, (undirected_symm_iff flat_incomeReads hg).2.mpr fun p q r hqp hrq => ?_⟩
  · obtain rfl := Except.ok.inj hg
    rfl
  · have hfirst := (mem_byReader flat_incomeReads).mpr hqp
    have hsecond := (mem_byReader flat_incomeReads).mpr hrq
    exact absurd rfl (hunread _ hfirst _ hsecond)

/-- A rule that reads one that reads a fact. -/
def chainedReads : Value := .ofEntries [
  ("a", .ofEntries [("var", .str "b")]),
  ("b", .ofEntries [("var", .str "c")])]

theorem flat_chainedReads : Flat chainedReads where
  group := rfl
  single := List.forall_mem_cons.mpr ⟨⟨"a", rfl, by decide⟩,
    List.forall_mem_singleton.mpr ⟨"b", rfl, by decide⟩⟩
  paths := by decide

/-- The fact leads to its reader, which leads only to its own reader. -/
theorem not_undirected_symm_of_chainedReads : Flat chainedReads ∧
    ∃ g, ofRules chainedReads = .ok g ∧ Simple "b" ∧ Simple "c" ∧
      g.Leads .undirected "c" "b" ∧ ¬ g.Leads .undirected "b" "c" := by
  obtain ⟨g, hg⟩ : ∃ g, ofRules chainedReads = .ok g := ⟨_, rfl⟩
  have hc : g.edges (ofText "c") .undirected = .ok (["b"].map .str) := by
    obtain rfl := Except.ok.inj hg
    rfl
  have hb : g.edges (ofText "b") .undirected = .ok (["a"].map .str) := by
    obtain rfl := Except.ok.inj hg
    rfl
  refine ⟨flat_chainedReads, g, hg, by decide, by decide, ⟨_, hc, by simp⟩, fun hleads => ?_⟩
  have hmem := hleads.mem hb
  simp at hmem

end Graph

end RuleTree
