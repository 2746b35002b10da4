import RuleTree.Http.Service
import RuleTree.Proofs.Graph.Lookups
import RuleTree.Proofs.Http.Documented
import RuleTree.Proofs.Registry
/-!
# Commands on rule sets

What a request asks of the rule sets is a command on a map from names to rules
(`Http.Command`). A command changes the map at one name at most (`Http.Command.after`), and the
map alone tells its answer (`Http.Command.Answers`). A registry serves each command so
(`Http.Served`). Graphs are of texts in lists and maps (`Http.ofTexts_of_mem_entryValues`), so a
rule set can always be shown.
-/

namespace RuleTree

namespace Http

open Rules

/-! ## Commands -/

/-- The rules under each name. -/
abbrev RuleMap := String → Option Value

/-- The map without rules. -/
def RuleMap.empty : RuleMap := fun _ => none

/-- What a request asks of the rule sets. -/
inductive Command where
  | list
  | register (form : RuleSetForm)
  | display (name : String)
  | remove (name : String)
  /-- Show the graph of a rule set, run it, or walk through it. -/
  | use (name part : String)

/-- Rules are registered under a name that is taken, without the leave to replace them. -/
def RuleSetForm.Conflicts (M : RuleMap) (form : RuleSetForm) : Prop :=
  (M form.name).isSome = true ∧ form.replace = false

instance (M : RuleMap) (form : RuleSetForm) : Decidable (form.Conflicts M) :=
  inferInstanceAs (Decidable (_ ∧ _))

/-- A response shows a rule set. -/
def Shows (status : Nat) (name : String) (rules : Value) (response : Response) : Prop :=
  ∃ g, Graph.ofRules rules = .ok g ∧ response = .json status [
    ("name", .str name), ("rule_paths", .ofTexts (Rules.paths rules)),
    ("forward", g.view .forward), ("backward", g.view .backward)]

namespace Command

/-- The map after a command. -/
def after (M : RuleMap) : Command → RuleMap
  | register form =>
    if form.Conflicts M ∨ LacksPath form.rules then M
    else Function.update M form.name (some form.rules)
  | remove name => Function.update M name none
  | _ => M

/-- The command changes nothing, whatever is answered. -/
def Refused (M : RuleMap) : Command → Prop
  | register form => form.Conflicts M ∨ LacksPath form.rules
  | remove name => M name = none
  | _ => True

/-- The answer that a command deserves on a map. -/
def Answers (M : RuleMap) : Command → Response → Prop
  | list, response => ∃ names : List String, names.Pairwise (· < ·) ∧
    (∀ name, name ∈ names ↔ (M name).isSome = true) ∧
    response = .json 200 [("names", .ofTexts names), ("total", .int names.length)]
  | register form, response =>
    if form.Conflicts M then
      response = .detail 409 ("규칙 묶음 '" ++ form.name ++ "'이(가) 이미 등록되어 있습니다")
    else if LacksPath form.rules then
      response = .detail 400 "규칙 묶음 등록 실패: var 연산자에 피연산자가 없습니다"
    else Shows 201 form.name form.rules response
  | display name, response =>
    match M name with
    | some rules => Shows 200 name rules response
    | none => response = noRuleSet name
  | remove name, response =>
    if (M name).isSome then response = .bare 204 else response = noRuleSet name
  | use _ _, _ => True

end Command

/-! ## Answers -/

/-- A node of an edge map is of texts in lists and maps. -/
theorem OfTexts.of_node {key edge : String → Prop} {nested : Prop} {v : Value}
    (h : EdgeMap.Node key edge nested v) : OfTexts v := by
  induction h with
  | list _ =>
    refine .list fun v hv => ?_
    obtain ⟨t, -, rfl⟩ := List.mem_map.mp hv
    exact .text t
  | map _ _ _ ih => exact .map ih

/-- A graph is of texts in lists and maps. -/
theorem ofTexts_of_mem_entryValues {rules v : Value} {g : Graph} {direction : Direction}
    (hg : Graph.ofRules rules = .ok g) (hv : v ∈ (g.view direction).entryValues) : OfTexts v := by
  obtain ⟨es, -, rfl⟩ := Graph.exists_of_ofRules hg
  have hview : EdgeMap.Node (fun _ => True) (fun _ => True) True
      ((Graph.ofEdges es).view direction) :=
    Graph.node_view trivial (fun _ _ _ _ _ => trivial) direction
      (fun _ _ => ⟨fun _ _ => trivial, fun _ => trivial⟩)
      (fun _ _ => ⟨fun _ _ => trivial, fun _ => trivial⟩) fun _ _ _ _ => trivial
  generalize (Graph.ofEdges es).view direction = view at hview hv
  cases hview with
  | list _ => cases hv
  | map _ _ below =>
    obtain ⟨⟨k, w⟩, hmem, rfl⟩ := List.mem_map.mp hv
    exact .of_node (below k w hmem)

section

variable {F : Framework} (hF : F.AsDocumented)
include hF

/-- The engine of rules is shown. -/
theorem shows_showRuleSet {rules : Value} {settings : Settings} {e : Engine}
    (he : Engine.ofRules rules settings = .ok e) (status : Nat) (name : String) :
    Shows status name rules (showRuleSet F status name e) := by
  obtain ⟨hrules, -, hg⟩ := Engine.ofRules_eq_ok he
  have hwrites : ((e.graph.view .forward).entryValues ++
      (e.graph.view .backward).entryValues).all F.encodes = true := by
    refine List.all_eq_true.mpr fun v hv => hF.writes ?_
    exact (List.mem_append.mp hv).elim (ofTexts_of_mem_entryValues hg)
      (ofTexts_of_mem_entryValues hg)
  refine ⟨e.graph, hg, ?_⟩
  rw [showRuleSet, Framework.respond, if_pos hwrites, Engine.rulePaths, hrules]

end

/-- A command is served on a registry : its rule sets are those of the map after the command,
it is the same if the command is refused, and the answer is the one that the command deserves. -/
structure Served (r : Registry) (c : Command) (result : Response × Registry) : Prop where
  sound : result.2.Sound
  settings : result.2.settings = r.settings
  rules : result.2.rulesOf = c.after r.rulesOf
  refused : c.Refused r.rulesOf → result.2 = r
  answers : c.Answers r.rulesOf result.1

section

variable {F : Framework} {r : Registry}

/-- The names are listed in order. -/
theorem served_list (h : r.Sound) : Served r .list (showRuleSets r, r) where
  sound := h
  settings := rfl
  rules := rfl
  refused _ := rfl
  answers := ⟨r.names, Registry.names_sorted h, fun _ => Registry.mem_names_iff, rfl⟩

/-- A rule set can be used with any answer that leaves the registry as it is. -/
theorem served_use (h : r.Sound) (name part : String) (response : Response) :
    Served r (.use name part) (response, r) where
  sound := h
  settings := rfl
  rules := rfl
  refused _ := rfl
  answers := trivial

/-- Rules to register are refused if the name is taken or an expression asks for a fact without a
path, and otherwise their engine is put under the name. -/
theorem served_register (hF : F.AsDocumented) (h : r.Sound) {form : RuleSetForm}
    (hwritable : isWritable form.rules = true) :
    Served r (.register form) (answerRegister F r form) := by
  have hcontains : r.contains form.name && !form.replace ↔ form.Conflicts r.rulesOf := by
    rw [r.contains_eq, RuleSetForm.Conflicts]
    simp
  rw [answerRegister, r.register_outcome]
  by_cases hconflict : form.Conflicts r.rulesOf
  · rw [if_pos (hcontains.mpr hconflict)]
    exact {
      sound := h
      settings := rfl
      rules := (if_pos (Or.inl hconflict)).symm
      refused := fun _ => rfl
      answers := by
        rw [Command.Answers, if_pos hconflict]
        rfl }
  rw [if_neg fun hc => hconflict (hcontains.mp hc)]
  rcases Engine.ofRules_eq_ok_or form.rules r.settings with
    ⟨hpaths, -, e, he⟩ | ⟨hlacks, he⟩ | ⟨-, hlong, -⟩
  · have haccepted : ¬ (form.Conflicts r.rulesOf ∨ LacksPath form.rules) :=
      not_or.mpr ⟨hconflict, hpaths⟩
    obtain ⟨hrules, -, -⟩ := Engine.ofRules_eq_ok he
    rw [he]
    exact {
      sound := h.put (hrules.symm ▸ he) form.name
      settings := rfl
      rules := by
        rw [Command.after, if_neg haccepted, ← hrules]
        exact r.rulesOf_put form.name e
      refused := fun hrefused => absurd hrefused haccepted
      answers := by
        rw [Command.Answers, if_neg hconflict, if_neg hpaths]
        exact shows_showRuleSet hF he 201 form.name }
  · rw [he]
    exact {
      sound := h
      settings := rfl
      rules := (if_pos (Or.inr hlacks)).symm
      refused := fun _ => rfl
      answers := by
        rw [Command.Answers, if_neg hconflict, if_pos hlacks]
        rfl }
  · cases hwritable.symm.trans hlong

/-- A rule set is shown if it is there, and missed if not. -/
theorem served_display (hF : F.AsDocumented) (h : r.Sound) (name : String) :
    Served r (.display name) (withEngine r name (showRuleSet F 200 name), r) where
  sound := h
  settings := rfl
  rules := rfl
  refused _ := rfl
  answers := by
    rw [Command.Answers]
    cases he : r.engine? name with
    | none =>
      have hrules : r.rulesOf name = none := by rw [Registry.rulesOf, he]; rfl
      rw [hrules, withEngine, he]
    | some e =>
      have hrules : r.rulesOf name = some e.rules := by rw [Registry.rulesOf, he]; rfl
      rw [hrules, withEngine, he]
      exact shows_showRuleSet hF (h.made he) 200 name

/-- A name is removed if it is there, and missed if not. -/
theorem served_remove (h : r.Sound) (name : String) :
    Served r (.remove name) (answerRemove r name) := by
  cases hrules : r.rulesOf name with
  | none =>
    have hcontains : ¬ r.contains name = true := by simp [r.contains_eq, hrules]
    rw [answerRemove, if_neg hcontains]
    exact {
      sound := h
      settings := rfl
      rules := by rw [Command.after, ← hrules, Function.update_eq_self]
      refused := fun _ => rfl
      answers := by
        rw [Command.Answers, hrules]
        rfl }
  | some rules =>
    have hcontains : r.contains name = true := by simp [r.contains_eq, hrules]
    rw [answerRemove, if_pos hcontains]
    exact {
      sound := h.remove name
      settings := rfl
      rules := r.rulesOf_remove name
      refused := fun hrefused => absurd (hrules.symm.trans hrefused) (by simp)
      answers := by
        rw [Command.Answers, hrules]
        rfl }

end

end Http

end RuleTree
