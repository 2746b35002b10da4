import RuleTree.Proofs.Graph.Mentioned
import RuleTree.Proofs.Graph.Exactness
/-!
# Look-ups in a graph

Segments are admissible if their kind has the empty one and the positions that can be written
but not the wildcard. In the graph of rules whose keys and paths have admissible segments
throughout, a look-up at such a path finds texts of the same sort again, or single characters of
them (`Graph.finds_walkable`), and it never finds more different ones than the weight of the
graph. If the segments are legible too, the look-up succeeds (`Graph.exists_edges`).
-/

namespace RuleTree

/-! ## Segments throughout a text -/

namespace Path

/-- Every segment of a written path has a property. -/
def Throughout (ok : String → Prop) (t : String) : Prop := ∀ s ∈ ofText t, ok s

variable {ok : String → Prop}

instance (t : String) [DecidablePred ok] : Decidable (Throughout ok t) :=
  inferInstanceAs (Decidable (∀ s ∈ ofText t, ok s))

theorem ofText_of_dotless {s : String} (h : '.' ∉ s.toList) : ofText s = [s] := by
  have htext : text [s] = s := by simp [text]
  have hsplit : ofText (text [s]) = [s] := ofText_text (List.cons_ne_nil _ _) (by simpa using h)
  rwa [htext] at hsplit

theorem throughout_of_dotless {s : String} (h : '.' ∉ s.toList) :
    Throughout ok s ↔ ok s := by
  rw [Throughout, ofText_of_dotless h]
  simp

theorem throughout_append_dot {t t' : String} :
    Throughout ok (t ++ "." ++ t') ↔ Throughout ok t ∧ Throughout ok t' := by
  simp [Throughout, ofText_append_dot, or_imp, forall_and]

/-- A written path has segments of a kind exactly if its texts have them. -/
theorem throughout_text {path : Path} (hne : path ≠ []) :
    Throughout ok (text path) ↔ ∀ s ∈ path, Throughout ok s := by
  simp only [Throughout, ofText_text_eq_flatMap hne, List.mem_flatMap]
  constructor
  · exact fun h s hs segment hm => h segment ⟨s, hs, hm⟩
  · rintro h segment ⟨s, hs, hm⟩
    exact h s hs segment hm

/-- A kind of segments that rules always have, without the wildcard. -/
structure Admissible (ok : String → Prop) : Prop where
  empty : ok ""
  position : ∀ n : Nat, Text.isWritable n = true → ok (toString n)
  ne_wildcard : ∀ s, ok s → s ≠ wildcard

theorem admissible_ne_wildcard : Admissible (· ≠ wildcard) :=
  ⟨by decide, fun n _ => toString_ne_wildcard n, fun _ h => h⟩

/-- Neither the wildcard nor digits without a value as a position. -/
def Legible (s : String) : Prop := s ≠ wildcard ∧ Text.readIndex s.toList ≠ .malformed

instance : DecidablePred Legible := fun _ => inferInstanceAs (Decidable (_ ∧ _))

theorem legible_toString {n : Nat} (h : Text.isWritable n = true) : Legible (toString n) :=
  ⟨toString_ne_wildcard n, by rw [Text.readIndex_toString h]; nofun⟩

theorem admissible_legible : Admissible Legible :=
  ⟨by decide, fun _ => legible_toString, fun _ h => h.1⟩

namespace Admissible

variable (h : Admissible ok)
include h

theorem throughout_empty : Throughout ok "" := by
  rw [throughout_of_dotless (by simp)]
  exact h.empty

theorem throughout_toString (n : Nat) (hn : Text.isWritable n = true) :
    Throughout ok (toString n) :=
  (throughout_of_dotless (plain_toString n).2).mpr (h.position n hn)

end Admissible

/-- A text whose segments have a property, or a single character. -/
def Walkable (ok : String → Prop) (t : String) : Prop :=
  Throughout ok t ∨ ∃ c : Char, t = c.toString

/-- A single character is one segment, unless it is the dot. -/
theorem Walkable.throughout_or (hok : Admissible ok) {t : String} (h : Walkable ok t) :
    Throughout ok t ∨ ofText t = [t] := by
  rcases h with h | ⟨c, rfl⟩
  · exact Or.inl h
  · by_cases hc : c = '.'
    · subst hc
      exact Or.inl (throughout_append_dot.mpr ⟨hok.throughout_empty, hok.throughout_empty⟩)
    · exact Or.inr (ofText_of_dotless (by simpa [Char.toString] using Ne.symm hc))

end Path

/-! ## Edges of admissible rules -/

namespace Rules

open RuleTree.Path

/-- The segments of the keys on the way to expressions and of the paths asked for. -/
structure Consists (ok : String → Prop) (rules : Value) : Prop where
  admissible : Admissible ok
  keys : ∀ key ∈ groupKeys rules, Throughout ok key
  paths : ∀ p ∈ askedPaths rules, Throughout ok p

variable {ok : String → Prop} {rules : Value} {es : List Edge}

/-- The edges of rules that consist of segments of a kind have such segments on both sides. -/
theorem Consists.of_mem (h : Consists ok rules) (hes : edges rules = .ok es) {e : Edge}
    (he : e ∈ es) : (e.reader ≠ [] ∧ ∀ s ∈ e.reader, Throughout ok s) ∧
      e.target ≠ [] ∧ ∀ s ∈ e.target, Throughout ok s := by
  obtain ⟨address, logic, p, hs, hp, rfl⟩ := (mem_edges_iff hes).mp he
  have haddress := hs.forall_mem_address_of_isWritable (isWritable_of_edges hes) h.keys
    h.admissible.throughout_toString
  have hpath := h.paths p (mem_askedPaths_iff.mpr ⟨address, logic, hs, hp⟩)
  have hempty := h.admissible.throughout_empty
  cases address with
  | nil => simp [edge, hempty]
  | cons first below =>
    refine ⟨⟨List.cons_ne_nil _ _, haddress⟩,
      List.append_ne_nil_of_left_ne_nil (ofText_ne_nil p) _, fun s hm => ?_⟩
    rcases List.mem_append.mp hm with hm | hm
    · exact (throughout_of_dotless (dot_not_mem_of_mem_ofText hm)).mpr (hpath s hm)
    · exact haddress s (List.mem_cons_of_mem _ hm)

end Rules

/-- The texts that an edge leads to in a direction. -/
def Edge.texts (e : Edge) : Direction → List String
  | .forward => [e.target.text]
  | .backward => [e.reader.text]
  | .undirected => [e.target.text, e.reader.text]

namespace Edge

variable {direction : Direction}

theorem target_mem_texts (hd : direction ≠ .backward) (e : Edge) :
    e.target.text ∈ e.texts direction := by
  cases direction <;> simp [texts] at hd ⊢

theorem reader_mem_texts (hd : direction ≠ .forward) (e : Edge) :
    e.reader.text ∈ e.texts direction := by
  cases direction <;> simp [texts] at hd ⊢

end Edge

/-- The texts at the end of an edge have segments of the kind as well. -/
theorem Rules.Consists.throughout_texts {ok : String → Prop} {rules : Value} {es : List Edge}
    (h : Consists ok rules) (hes : edges rules = .ok es) {e : Edge} (he : e ∈ es)
    {direction : Direction} {t : String} (ht : t ∈ e.texts direction) : Path.Throughout ok t := by
  obtain ⟨⟨hreader, hr⟩, htarget, ht'⟩ := h.of_mem hes he
  have hreader := (Path.throughout_text hreader).mpr hr
  have htarget := (Path.throughout_text htarget).mpr ht'
  cases direction <;> simp only [Edge.texts, List.mem_cons, List.not_mem_nil, or_false] at ht
  · exact ht ▸ htarget
  · exact ht ▸ hreader
  · rcases ht with rfl | rfl
    · exact htarget
    · exact hreader

namespace Graph

open EdgeMap RuleTree.Path

theorem exists_of_ofRules {rules : Value} {g : Graph} (h : ofRules rules = .ok g) :
    ∃ es, Rules.edges rules = .ok es ∧ g = ofEdges es := by
  obtain ⟨es, hes, h⟩ := exists_of_bind_eq_ok h
  exact ⟨es, hes, (Except.ok.inj h).symm⟩

theorem exists_view (g : Graph) (direction : Direction) :
    ∃ entries, g.view direction = .ofEntries entries := by
  cases direction <;> exact ⟨_, rfl⟩

/-- A view is one of two maps built by insertions, or the entries of one put over the other. -/
theorem view_induction {P : Value → Prop} (es : List Edge) {direction : Direction}
    (hforward : direction ≠ .backward → P (.ofEntries (build (byReader es))))
    (hbackward : direction ≠ .forward → P (.ofEntries (build (byTarget es))))
    (hput : ∀ {entries m : List (String × Value)}, P (.ofEntries entries) → P (.ofEntries m) →
      P (.ofEntries (entries.foldl (fun m (k, v) => Entries.put k v m) m))) :
    P ((ofEdges es).view direction) := by
  rw [ofEdges_eq]
  cases direction with
  | forward => exact hforward (by decide)
  | backward => exact hbackward (by decide)
  | undirected => exact hput (hbackward (by decide)) (hforward (by decide))

/-- The view of a graph made of edges has the properties of their segments and texts. -/
theorem node_view {key edge : String → Prop} {nested : Prop} (hown : key ownKey)
    (hprolongs : Prolongs key edge nested) {es : List Edge} (direction : Direction)
    (hreader : ∀ e ∈ es, (∀ s ∈ e.reader, key s) ∧ (ownKey ∈ e.reader.dropLast → nested))
    (htarget : ∀ e ∈ es, (∀ s ∈ e.target, key s) ∧ (ownKey ∈ e.target.dropLast → nested))
    (htexts : ∀ e ∈ es, ∀ t ∈ e.texts direction, edge t) :
    Node key edge nested ((ofEdges es).view direction) := by
  refine view_induction es (fun hd => ?_) (fun hd => ?_) fun h hm => node_putAll h hm
  · apply node_build hown hprolongs <;> intro pair hpair <;>
      obtain ⟨e, he, rfl⟩ := List.mem_map.mp hpair
    · exact (hreader e he).1
    · exact (hreader e he).2
    · exact htexts e he _ (e.target_mem_texts hd)
  · apply node_build hown hprolongs <;> intro pair hpair <;>
      obtain ⟨e, he, rfl⟩ := List.mem_map.mp hpair
    · exact (htarget e he).1
    · exact (htarget e he).2
    · exact htexts e he _ (e.reader_mem_texts hd)

/-! ## What a look-up finds -/

theorem edges_eq_ok {g : Graph} {path : Path} {direction : Direction} {found : List Value}
    (h : g.edges path direction = .ok found) :
    ∃ node, (g.view direction).read path true = .ok node ∧ found = edgesIn node := by
  obtain ⟨node, hread, h⟩ := exists_of_bind_eq_ok h
  exact ⟨node, hread, (Except.ok.inj h).symm⟩

/-- Values each of which is a text with a property are a list of such texts. -/
theorem exists_texts {P : String → Prop} : ∀ {found : List Value},
    (∀ x ∈ found, ∃ t, x = .str t ∧ P t) → ∃ texts : List String,
      found = texts.map .str ∧ ∀ t ∈ texts, P t
  | [], _ => ⟨[], rfl, by simp⟩
  | x :: found, h => by
    obtain ⟨t, rfl, ht⟩ := h x (by simp)
    obtain ⟨texts, rfl, htexts⟩ := exists_texts fun x hx => h x (List.mem_cons_of_mem _ hx)
    exact ⟨t :: texts, rfl, by simpa [ht] using htexts⟩

/-- Look-ups at the paths of a domain that succeed find texts with a property. -/
def Finds (g : Graph) (direction : Direction) (domain property : String → Prop) : Prop :=
  ∀ u, domain u → ∀ found, g.edges (ofText u) direction = .ok found →
    ∃ texts : List String, found = texts.map .str ∧ ∀ t ∈ texts, property t

theorem Finds.mono {g : Graph} {direction : Direction} {domain property property' : String → Prop}
    (h : g.Finds direction domain property) (hsub : ∀ t, property t → property' t) :
    g.Finds direction domain property' := by
  intro u hu found hfound
  obtain ⟨texts, rfl, htexts⟩ := h u hu found hfound
  exact ⟨texts, rfl, fun t ht => hsub t (htexts t ht)⟩

variable {ok : String → Prop} {rules : Value} {g : Graph}

/-- A look-up at a walkable path finds walkable paths that the graph mentions. -/
theorem finds_walkable (h : Rules.Consists ok rules) (hg : ofRules rules = .ok g)
    (direction : Direction) : g.Finds direction (Walkable ok)
      fun t => Walkable ok t ∧ t ∈ mentioned (g.view direction) := by
  intro u hu found hfound
  obtain ⟨es, hes, rfl⟩ := exists_of_ofRules hg
  obtain ⟨node, hread, rfl⟩ := edges_eq_ok hfound
  have hview : Node (Throughout ok) (Throughout ok) True ((ofEdges es).view direction) :=
    node_view h.admissible.throughout_empty (fun _ _ _ ht hk => throughout_append_dot.mpr ⟨ht, hk⟩)
      direction (fun e he => ⟨(h.of_mem hes he).1.2, fun _ => trivial⟩)
      (fun e he => ⟨(h.of_mem hes he).2.2, fun _ => trivial⟩)
      fun e he t ht => h.throughout_texts hes he ht
  refine exists_texts fun x hx => ?_
  have hmentioned : ∀ t, x = .str t → t ∈ mentioned ((ofEdges es).view direction) :=
    fun t ht => mem_mentioned_of_edges hfound (ht ▸ hx)
  rcases hu.throughout_or h.admissible with hsegments | hsingle
  · have hwild : ∀ s ∈ ofText u, s ≠ wildcard :=
      fun s hs => h.admissible.ne_wildcard s (hsegments s hs)
    obtain ⟨t, rfl, ht⟩ := of_mem_edgesIn_of_read hview hwild hread hx
    refine ⟨t, rfl, ?_, hmentioned t rfl⟩
    rcases ht with ht | ⟨-, ht⟩ | ⟨-, word, c, -, -, rfl⟩
    · exact Or.inl ht
    · exact Or.inl ht
    · exact Or.inr ⟨c, rfl⟩
  · obtain ⟨entries, hentries⟩ := exists_view (ofEdges es) direction
    rw [hsingle, hentries] at hread
    rw [hentries] at hview
    obtain ⟨t, rfl, ht⟩ := of_mem_edgesIn_of_read_singleton hview hread hx
    refine ⟨t, rfl, ?_, hmentioned t rfl⟩
    rcases ht with ht | ⟨-, ht⟩
    · exact Or.inl ht
    · exact Or.inl ht

/-- A path of legible segments can be read in any value. -/
theorem exists_read_of_legible : ∀ {path : Path}, (∀ s ∈ path, Legible s) → ∀ v : Value,
    ∃ found, v.read path true = .ok found
  | [], _, v => ⟨v, rfl⟩
  | segment :: rest, h, v => by
    obtain ⟨hwild, hindex⟩ := h segment (by simp)
    cases hv : v.isScalar with
    | true => exact ⟨.null, read_scalar hv hwild⟩
    | false =>
      obtain ⟨child, hc⟩ := Value.exists_child? hindex v
      rw [Value.read_cons hv hwild, hc]
      cases child with
      | none => exact ⟨.null, rfl⟩
      | some inner =>
        exact exists_read_of_legible (fun s hs => h s (List.mem_cons_of_mem _ hs)) inner

/-- A single segment can be read in a map. -/
theorem exists_read_singleton (segment : String) (entries : List (String × Value)) :
    ∃ found, (Value.ofEntries entries).read [segment] true = .ok found := by
  rw [Value.read, if_neg (by simp [Value.ofEntries, Value.isScalar])]
  by_cases hs : segment = wildcard
  · rw [if_pos hs]
    exact ⟨_, rfl⟩
  · have hchild : (Value.ofEntries entries).child? segment =
        .ok (Entries.get? segment entries) := rfl
    rw [if_neg hs, hchild]
    cases Entries.get? segment entries <;> exact ⟨_, rfl⟩

/-- A look-up at a walkable path of legible segments succeeds. -/
theorem exists_edges (g : Graph) (direction : Direction) {u : String} (hu : Walkable Legible u) :
    ∃ found, g.edges (ofText u) direction = .ok found := by
  have hread : ∃ node, (g.view direction).read (ofText u) true = .ok node := by
    rcases hu.throughout_or admissible_legible with hsegments | hsingle
    · exact exists_read_of_legible hsegments _
    · obtain ⟨entries, hentries⟩ := exists_view g direction
      rw [hsingle, hentries]
      exact exists_read_singleton u entries
  obtain ⟨node, hread⟩ := hread
  exact ⟨edgesIn node, by rw [edges, hread]; rfl⟩

end Graph

end RuleTree
