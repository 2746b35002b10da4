import RuleTree.Proofs.Graph.Origins
import RuleTree.Proofs.Graph.Sites
import RuleTree.Proofs.Rules.Reordered
/-!
# Order of the rules

Reordered rules have the same edges in another order. A graph can be built of both if it can
be built of one, and each of its directed maps lists the same edge sets for both exactly if no
path that edges are kept under has an empty segment before its last one
(`Graph.ofRules_reordered`). Otherwise it lists a map as an edge set.
-/

namespace RuleTree

namespace Rules

theorem ne_nil_of_mem_edges {rules : Value} {es : List Edge} (hes : edges rules = .ok es)
    {e : Edge} (he : e ∈ es) : e.reader ≠ [] ∧ e.target ≠ [] := by
  obtain ⟨address, logic, p, -, -, rfl⟩ := (mem_edges_iff hes).mp he
  cases address <;> simp [edge, Path.ofText_ne_nil]

end Rules

namespace Graph

open EdgeMap Rules

/-- Reordered rules give the same edge sets in both directed maps, exactly if no path that edges
are kept under has an empty segment before its last one. -/
theorem ofRules_reordered {rules rules' : Value} (h : Reordered rules rules') {es : List Edge}
    (hes : Rules.edges rules = .ok es) :
    ∃ g g', ofRules rules = .ok g ∧ ofRules rules' = .ok g' ∧
      ∀ direction, direction ≠ .undirected →
        (SameSets (edgeSets [] (g.view direction)) (edgeSets [] (g'.view direction)) ↔
          ∀ e ∈ es, ∀ path ∈ e.keys direction, ownKey ∉ path.dropLast) := by
  obtain ⟨es', hes', hperm⟩ := h.exists_edges hes
  refine ⟨ofEdges es, ofEdges es', by rw [ofRules, hes]; rfl, by rw [ofRules, hes']; rfl, ?_⟩
  have hbuilt : ∀ place : Edge → Path × String, (∀ e ∈ es, (place e).1 ≠ []) →
      (SameSets (edgeSets [] (.ofEntries (build (es.map place))))
        (edgeSets [] (.ofEntries (build (es'.map place)))) ↔
          ∀ e ∈ es, ownKey ∉ (place e).1.dropLast) := by
    intro place hne
    rw [sameSets_build_iff (List.forall_mem_map.mpr hne) (hperm.map place), List.forall_mem_map]
  rintro (_ | _ | _) hd
  · have hforward := hbuilt (fun e => (e.reader, e.target.text))
      fun e he => (ne_nil_of_mem_edges hes he).1
    rw [ofEdges_eq, ofEdges_eq]
    exact hforward.trans (by simp [Edge.keys])
  · have hbackward := hbuilt (fun e => (e.target, e.reader.text))
      fun e he => (ne_nil_of_mem_edges hes he).2
    rw [ofEdges_eq, ofEdges_eq]
    exact hbackward.trans (by simp [Edge.keys])
  · exact absurd rfl hd

/-- Rules of a group and a rule that reads one of them. -/
def taxesFirst : Value := .ofEntries [
  ("taxes", .ofEntries [("city", .ofEntries [("var", .str "base")]),
    ("state", .ofEntries [("var", .str "base")])]),
  ("total", .ofEntries [("var", .str "taxes.city")])]

/-- The same rules, reordered in the group and outside of it. -/
def totalFirst : Value := .ofEntries [
  ("total", .ofEntries [("var", .str "taxes.city")]),
  ("taxes", .ofEntries [("state", .ofEntries [("var", .str "base")]),
    ("city", .ofEntries [("var", .str "base")])])]

theorem reordered_taxesFirst : Reordered taxesFirst totalFirst :=
  .trans (@Reordered.entry _ [] _ _ _ _ rfl (.group rfl (.swap ..))) (.group rfl (.swap ..))

/-- Two orders of the same rules. -/
theorem ofRules_reordered_of_taxesFirst : ∃ g g', ofRules taxesFirst = .ok g ∧
    ofRules totalFirst = .ok g' ∧ ∀ direction, direction ≠ .undirected →
      SameSets (edgeSets [] (g.view direction)) (edgeSets [] (g'.view direction)) := by
  obtain ⟨es, hes⟩ : ∃ es, Rules.edges taxesFirst = .ok es := ⟨_, rfl⟩
  obtain ⟨g, g', hg, hg', hsame⟩ := ofRules_reordered reordered_taxesFirst hes
  refine ⟨g, g', hg, hg', fun direction hd => (hsame direction hd).mpr ?_⟩
  obtain rfl := Except.ok.inj hes
  cases direction <;> decide

/-- A rule that reads a path with an empty segment, before one that reads its first part. -/
def emptyFirst : Value := .ofEntries [
  ("inner", .ofEntries [("var", .str "a..b")]), ("outer", .ofEntries [("var", .str "a")])]

/-- The same rules in the other order. -/
def emptyLast : Value := .ofEntries [
  ("outer", .ofEntries [("var", .str "a")]), ("inner", .ofEntries [("var", .str "a..b")])]

/-- A map is listed as the edge set of the path, and it has other keys in the other order. -/
theorem not_sameSets_of_emptyFirst : Reordered emptyFirst emptyLast ∧
    (∃ es, Rules.edges emptyFirst = .ok es) ∧ ∃ g g', ofRules emptyFirst = .ok g ∧
      ofRules emptyLast = .ok g' ∧ g.edges ["a"] .backward = .ok (["b"].map .str) ∧
      g'.edges ["a"] .backward = .ok (["", "b"].map .str) ∧
      ¬ SameSets (edgeSets [] (g.view .backward)) (edgeSets [] (g'.view .backward)) := by
  refine ⟨.group rfl (.swap ..), ⟨_, rfl⟩, _, _, rfl, rfl, rfl, rfl, fun hsame => ?_⟩
  obtain ⟨texts, ht⟩ := hsame.ofTexts _ (List.mem_cons_self ..)
  cases ht

end Graph

end RuleTree
