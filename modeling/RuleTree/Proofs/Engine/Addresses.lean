import RuleTree.Proofs.Engine.Soundness
import RuleTree.Proofs.Graph.Sites
import RuleTree.Proofs.Rules.Listing
/-!
# Addresses in an engine

A rule tree is gone through three times : to list the paths of its rules, to make its graph,
and to find the rule at a path. All three mean the same addresses
(`Engine.addresses_agree`) : the paths listed are those of the expressions, each once and in
the order of the tree, the rule found at one is the expression that stands there, and the
forward edge sets have the paths of the expressions that ask for something.
-/

namespace RuleTree

/-! ## Sites of readers -/

namespace EdgeMap

theorem site_of_plain : ∀ {path : Path}, (∀ s ∈ path, Path.Plain s) → site path = path
  | [], _ => rfl
  | [last], h => if_neg (h last (by simp)).1
  | first :: second :: rest, h => by
    rw [site, site_of_plain fun s hs => h s (List.mem_cons_of_mem _ hs)]

end EdgeMap

namespace Graph

open EdgeMap Rules

variable {rules : Value} {g : Graph}

/-- The edges of an expression with a plain address are inserted at the address, also those of
an expression that is the whole tree. -/
theorem insertable_edge {address : Path} (h : ∀ s ∈ address, Path.Plain s) (p : String) :
    ((edge address p).reader ≠ [] ∧ ownKey ∉ (edge address p).reader.dropLast) ∧
      site (edge address p).reader = address := by
  cases address with
  | nil => exact ⟨⟨List.cons_ne_nil _ _, List.not_mem_nil⟩, rfl⟩
  | cons first rest =>
    refine ⟨⟨List.cons_ne_nil _ _, fun hm => ?_⟩, site_of_plain h⟩
    exact ownKey_not_mem h (List.mem_of_mem_dropLast hm)

section

variable (hkeys : ∀ key ∈ groupKeys rules, Path.Plain key) {es : List Edge}
  (hes : Rules.edges rules = .ok es)

include hkeys hes

theorem insertable_byReader : Insertable (byReader es) := by
  intro pair hpair
  obtain ⟨e, he, rfl⟩ := List.mem_map.mp hpair
  obtain ⟨address, logic, p, hs, -, rfl⟩ := (mem_edges_iff hes).mp he
  exact (insertable_edge (hs.forall_mem_address hkeys Path.plain_toString) p).1

/-- The sites of the readers are the addresses of the expressions that ask for a path. -/
theorem mem_sites_iff {address : Path} : address ∈ (sited (byReader es)).map Prod.fst ↔
    ∃ logic, StandsAt rules address logic ∧ asked logic ≠ [] := by
  have hmap : (sited (byReader es)).map Prod.fst = es.map fun e => site e.reader := by
    simp [sited, byReader]
  rw [hmap, List.mem_map]
  constructor
  · rintro ⟨e, he, rfl⟩
    obtain ⟨address, logic, p, hs, hp, rfl⟩ := (mem_edges_iff hes).mp he
    rw [(insertable_edge (hs.forall_mem_address hkeys Path.plain_toString) p).2]
    exact ⟨logic, hs, List.ne_nil_of_mem hp⟩
  · rintro ⟨logic, hs, hasked⟩
    obtain ⟨p, hp⟩ := List.exists_mem_of_ne_nil _ hasked
    refine ⟨edge address p, (mem_edges_iff hes).mpr ⟨address, logic, p, hs, hp, rfl⟩, ?_⟩
    exact (insertable_edge (hs.forall_mem_address hkeys Path.plain_toString) p).2

end

/-- The forward edge sets have the addresses of the expressions that ask for a path. -/
theorem perm_addresses (hd : rules.distinctKeys = true)
    (hkeys : ∀ key ∈ groupKeys rules, Path.Plain key) (hg : ofRules rules = .ok g) :
    ((edgeSets [] (g.view .forward)).map Prod.fst).Perm
      (((expressions rules).filter fun p => asked p.2 ≠ []).map fun p => p.1.text) := by
  obtain ⟨es, hes, hg⟩ := exists_of_bind_eq_ok hg
  obtain rfl : ofEdges es = g := Except.ok.inj hg
  have hsites : ((sited (byReader es)).map Prod.fst).dedup.Perm
      (((expressions rules).filter fun p => asked p.2 ≠ []).map Prod.fst) := by
    refine (List.perm_ext_iff_of_nodup (List.nodup_dedup _) ?_).mpr fun address => ?_
    · exact (nodup_addresses hd).sublist (List.filter_sublist.map _)
    · rw [List.mem_dedup, mem_sites_iff hkeys hes]
      simp [← mem_expressions_iff]
  have hlisted := (carries_build_site (insertable_byReader hkeys hes)).perm_edgeSets []
  rw [ofEdges_eq, view]
  have htexts := hsites.map Path.text
  rw [List.map_map] at htexts
  refine (hlisted.map Prod.fst).trans (.trans (.of_eq ?_) htexts)
  rw [List.map_map]
  rfl

end Graph

/-! ## Agreement -/

namespace Engine

open Rules EdgeMap

variable {rules : Value} {settings : Settings} {e : Engine}

/-- The paths listed are the written addresses of the expressions. -/
theorem rulePaths_eq (hkeys : ∀ key ∈ groupKeys rules, Path.Plain key)
    (he : ofRules rules settings = .ok e) :
    e.rulePaths = ((expressions rules).map Prod.fst).map Path.text := by
  rw [rulePaths, (ofRules_eq_ok he).1, paths, List.map_map]
  refine List.map_congr_left fun p hp => addressText_of_plain ?_
  exact (mem_expressions_iff.mp hp).forall_mem_address hkeys Path.plain_toString

/-- No address is listed twice. -/
theorem nodup_rulePaths (hd : rules.distinctKeys = true)
    (hkeys : ∀ key ∈ groupKeys rules, Path.Plain key) (he : ofRules rules settings = .ok e) :
    e.rulePaths.Nodup := by
  rw [rulePaths_eq hkeys he]
  refine (nodup_addresses hd).map_on fun address hm address' hm' => ?_
  obtain ⟨p, hp, rfl⟩ := List.mem_map.mp hm
  obtain ⟨q, hq, rfl⟩ := List.mem_map.mp hm'
  exact Path.text_inj
    ((mem_expressions_iff.mp hp).forall_mem_address hkeys Path.plain_toString)
    ((mem_expressions_iff.mp hq).forall_mem_address hkeys Path.plain_toString)

/-- The paths listed have the order of the tree. -/
theorem pairwise_rulePaths (hkeys : ∀ key ∈ groupKeys rules, Path.Plain key)
    (he : ofRules rules settings = .ok e) :
    (e.rulePaths.map Path.ofText).Pairwise (Precedes rules) := by
  rw [rulePaths_eq hkeys he]
  cases hr : rules.isExpression with
  | true =>
    rw [expressions_of_isExpression hr]
    exact List.pairwise_singleton _ _
  | false =>
    rw [List.map_map, List.map_map, List.pairwise_map]
    refine (pairwise_expressions rules).imp_of_mem fun {p q} hp hq h => ?_
    have hsegments : ∀ {p}, p ∈ expressions rules → Path.ofText p.1.text = p.1 := by
      intro p hp
      have hs := mem_expressions_iff.mp hp
      exact Path.ofText_text_of_plain (hs.ne_nil hr)
        (hs.forall_mem_address hkeys Path.plain_toString)
    simpa only [Function.comp, hsegments hp, hsegments hq] using h

/-- The paths listed are those of the expressions, each once and in the order of the tree.
The rule at one is the expression that stands there, and a run evaluates it. The forward edge
sets have the paths of the expressions that ask for something. -/
theorem addresses_agree (hd : rules.distinctKeys = true)
    (hkeys : ∀ key ∈ groupKeys rules, Path.Plain key) (he : ofRules rules settings = .ok e) :
    e.rulePaths = collect "" rules ∧ e.rulePaths.Nodup ∧
      (e.rulePaths.map Path.ofText).Pairwise (Precedes rules) ∧
      (∀ r ∈ e.rulePaths, ∃! p : Path × Value, StandsAt rules p.1 p.2 ∧ p.1.text = r) ∧
      (∀ address logic, StandsAt rules address logic → address.text ∈ e.rulePaths ∧
        e.rule (.str address.text) = .ok logic ∧
        ∀ id facts, e.run (.str address.text) (.map id facts) =
          Logged.silent ((evaluate logic (.map id facts) settings.depthLimit).mapError
            .evaluation)) ∧
      ((edgeSets [] (e.graph.view .forward)).map Prod.fst).Perm
        (((expressions rules).filter fun p => asked p.2 ≠ []).map fun p => p.1.text) := by
  obtain ⟨hrules, -, hg⟩ := ofRules_eq_ok he
  refine ⟨?_, nodup_rulePaths hd hkeys he, pairwise_rulePaths hkeys he, fun r hr => ?_,
    fun address logic hs => ⟨?_, rule_of_standsAt hkeys hd he hs, run_of_standsAt hkeys hd he hs⟩,
    Graph.perm_addresses hd hkeys hg⟩
  · rw [rulePaths, hrules, paths_eq_collect]
  · rw [rulePaths_eq hkeys he, List.map_map] at hr
    obtain ⟨⟨address, logic⟩, hp, rfl⟩ := List.mem_map.mp hr
    have hs := mem_expressions_iff.mp hp
    refine ⟨(address, logic), ⟨hs, rfl⟩, ?_⟩
    rintro ⟨address', logic'⟩ ⟨hs', ht⟩
    obtain rfl : address' = address :=
      Path.text_inj (hs'.forall_mem_address hkeys Path.plain_toString)
        (hs.forall_mem_address hkeys Path.plain_toString) ht
    exact Prod.ext rfl (hs.unique (isWritable_of_ofRules he) hd hs')
  · rw [rulePaths_eq hkeys he, List.map_map]
    exact List.mem_map.mpr ⟨(address, logic), mem_expressions_iff.mpr hs, rfl⟩

/-- Rules in a group, in a list and in a group in a list, between constants. -/
def nestedRules : Value := .ofEntries [
  ("tax", .ofEntries [("city", .ofEntries [("var", .str "base")]),
    ("rates", .ofList [.ofEntries [("+", .ofList [.ofEntries [("var", .str "income")], .int 2])],
      .int 5, .ofEntries [("none", .ofEntries [("!", .bool true)])]])]),
  ("report", .ofEntries [("var", .str "tax.city")])]

/-- Rules in groups and in a list, of which one reads nothing. -/
theorem addresses_agree_of_nestedRules : ∃ e, ofRules nestedRules .standard = .ok e ∧
    e.rulePaths = ["tax.city", "tax.rates.0", "tax.rates.2.none", "report"] ∧
    e.rule (.str "tax.rates.2.none") = .ok (.ofEntries [("!", .bool true)]) ∧
    ((edgeSets [] (e.graph.view .forward)).map Prod.fst).Perm
      ["tax.city", "tax.rates.0", "report"] := by
  obtain ⟨e, he⟩ : ∃ e, ofRules nestedRules .standard = .ok e := ⟨_, rfl⟩
  obtain ⟨hpaths, -, -, -, hat, hsets⟩ := addresses_agree rfl (by decide) he
  have hs : StandsAt nestedRules ["tax", "rates", "2", "none"] (.ofEntries [("!", .bool true)]) :=
    mem_expressions_iff.mp
      (List.mem_cons_of_mem _ (List.mem_cons_of_mem _ (List.mem_cons_self ..)))
  exact ⟨e, he, hpaths, (hat _ _ hs).2.1, hsets⟩

end Engine

end RuleTree
