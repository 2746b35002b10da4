import RuleTree.Registry
import RuleTree.Proofs.Engine.Faults
import Mathlib.Logic.Function.Basic
/-!
# Registries as maps

A registry is sound if no name is in it twice and every engine is the one made of its rules
(`Registry.Sound`). Its rule sets are then a map from names to rules, `Registry.rulesOf`, which
registering and removing update at one name, and the names listed are those of the map, in
order (`Registry.names_sorted`, `Registry.mem_names_iff`). Rules are refused exactly if one of
their expressions asks for a fact without a path or a list in them is too long
(`Engine.ofRules_eq_ok_or`).
-/

namespace RuleTree

/-! ## Entries without a key -/

namespace Entries

variable {α : Type} {entries : List (String × α)} {key other : String}

theorem get?_erase_self : get? key (erase key entries) = none := by
  induction entries with
  | nil => rfl
  | cons e rest ih =>
    obtain ⟨k, v⟩ := e
    by_cases hk : k = key
    · simpa [erase, hk] using ih
    · simpa [erase, get?, hk] using ih

theorem get?_erase_of_ne (h : other ≠ key) :
    get? other (erase key entries) = get? other entries := by
  induction entries with
  | nil => rfl
  | cons e rest ih =>
    obtain ⟨k, v⟩ := e
    by_cases hk : k = key
    · simpa [erase, get?, hk, h.symm] using ih
    · by_cases ho : k = other
      · simp [erase, get?, ho, h]
      · simpa [erase, get?, hk, ho] using ih

theorem nodup_keys_erase (key : String) (h : (keys entries).Nodup) :
    (keys (erase key entries)).Nodup :=
  h.sublist (List.filter_sublist.map _)

/-- Something is under a key exactly if the key is listed. -/
theorem isSome_get?_iff : (get? key entries).isSome = true ↔ key ∈ keys entries := by
  induction entries with
  | nil => simp [get?, keys]
  | cons e rest ih =>
    obtain ⟨k, v⟩ := e
    by_cases hk : k = key
    · simp [get?, keys, hk]
    · simpa [get?, keys, hk, Ne.symm hk] using ih

end Entries

/-- Names that are all different are in strict order after sorting. -/
theorem Text.pairwise_sorted {names : List String} (h : names.Nodup) :
    (names.mergeSort fun a b => decide (a ≤ b)).Pairwise (· < ·) := by
  have hsorted : (names.mergeSort fun a b => decide (a ≤ b)).Pairwise
      (fun a b => decide (a ≤ b) = true) := by
    refine List.pairwise_mergeSort (fun a b c hab hbc => ?_) (fun a b => ?_) _
    · simp only [decide_eq_true_eq] at *
      exact String.le_trans hab hbc
    · simpa using String.le_total a b
  have hdistinct : (names.mergeSort fun a b => decide (a ≤ b)).Nodup :=
    (List.mergeSort_perm _ _).nodup_iff.mpr h
  refine hsorted.imp₂ (fun a b hle hne => ?_) hdistinct
  by_contra hlt
  exact hne (String.le_antisymm (of_decide_eq_true hle) (String.not_lt.mp hlt))

/-! ## Rules that are refused -/

namespace Rules

/-- Some expression of a rule tree asks for a fact without a path. -/
def LacksPath (rules : Value) : Prop :=
  ∃ p ∈ expressions rules, (Expr.ofValue p.2).dependencies = .error .missingPath

instance (rules : Value) : Decidable (LacksPath rules) :=
  inferInstanceAs (Decidable (∃ p ∈ expressions rules, _))

end Rules

namespace Graph

open Rules

variable {rules : Value}

/-- If each expression has edges, the rules have all of them, unless a list is too long. -/
theorem edges_of_each {each : List (List Edge)}
    (h : (expressions rules).mapM (fun (address, e) => edgesAt address e) = .ok each) :
    Rules.edges rules =
      if isWritable rules then .ok each.flatten else .error .malformedIndex := by
  rw [Rules.edges, h]
  rfl

theorem not_lacksPath_of_each {each : List (List Edge)}
    (h : (expressions rules).mapM (fun (address, e) => edgesAt address e) = .ok each) :
    ¬ LacksPath rules := by
  rintro ⟨p, hp, hdependencies⟩
  obtain ⟨own, -, hown⟩ := exists_mem_of_mapM_eq_ok h hp
  obtain ⟨paths, hpaths, -⟩ := exists_of_bind_eq_ok hown
  cases hpaths.symm.trans hdependencies

/-- The edges of some expression cannot be made because it asks for a fact without a path. -/
theorem lacksPath_of_each {err : EvalError}
    (h : (expressions rules).mapM (fun (address, e) => edgesAt address e) = .error err) :
    LacksPath rules ∧ err = .missingPath := by
  obtain ⟨p, hp, hat⟩ := exists_mem_of_mapM_eq_error h
  have hdependencies : (Expr.ofValue p.2).dependencies = .error err :=
    (of_bind_eq_error hat).resolve_right fun ⟨_, _, h⟩ => nomatch h
  rcases (Expr.ofValue p.2).dependencies_eq_ok_or with ⟨paths, hpaths⟩ | hmissing
  · cases hpaths.symm.trans hdependencies
  · exact ⟨⟨p, hp, hmissing⟩, Except.error.inj (hdependencies.symm.trans hmissing)⟩

/-- A graph can be made exactly if no expression asks for a fact without a path and no list is
too long. -/
theorem ofRules_eq_ok_or (rules : Value) :
    (¬ LacksPath rules ∧ isWritable rules = true ∧ ∃ g, ofRules rules = .ok g) ∨
      (LacksPath rules ∧ ofRules rules = .error .missingPath) ∨
      ¬ LacksPath rules ∧ isWritable rules = false ∧ ofRules rules = .error .malformedIndex := by
  cases heach : (expressions rules).mapM fun (address, e) => edgesAt address e with
  | ok each =>
    have hpaths := not_lacksPath_of_each heach
    have hedges := edges_of_each heach
    cases hw : isWritable rules with
    | true =>
      rw [hw, if_pos rfl] at hedges
      exact Or.inl ⟨hpaths, rfl, ofEdges each.flatten, by rw [ofRules, hedges]; rfl⟩
    | false =>
      rw [hw, if_neg (by decide)] at hedges
      exact Or.inr (Or.inr ⟨hpaths, rfl, by rw [ofRules, hedges]; rfl⟩)
  | error err =>
    obtain ⟨hlacks, rfl⟩ := lacksPath_of_each heach
    exact Or.inr (Or.inl ⟨hlacks, by rw [ofRules, Rules.edges, heach]; rfl⟩)

end Graph

/-- An engine can be made exactly if no expression asks for a fact without a path and no list is too
long. -/
theorem Engine.ofRules_eq_ok_or (rules : Value) (settings : Settings) :
    (¬ Rules.LacksPath rules ∧ Rules.isWritable rules = true ∧
        ∃ e, ofRules rules settings = .ok e) ∨
      (Rules.LacksPath rules ∧ ofRules rules settings = .error .missingPath) ∨
      ¬ Rules.LacksPath rules ∧ Rules.isWritable rules = false ∧
        ofRules rules settings = .error .malformedIndex := by
  rw [ofRules]
  rcases Graph.ofRules_eq_ok_or rules with ⟨hpaths, hw, g, hg⟩ | ⟨hlacks, hg⟩ | ⟨hpaths, hw, hg⟩
  · exact Or.inl ⟨hpaths, hw, _, by rw [hg]; rfl⟩
  · exact Or.inr (Or.inl ⟨hlacks, by rw [hg]; rfl⟩)
  · exact Or.inr (Or.inr ⟨hpaths, hw, by rw [hg]; rfl⟩)

/-! ## Registries -/

namespace Registry

variable {r : Registry} {name : String} {e : Engine}

/-- The rules under each name. -/
def rulesOf (r : Registry) (name : String) : Option Value := (r.engine? name).map (·.rules)

/-- No name is in the registry twice, and every engine is the one made of its rules. -/
structure Sound (r : Registry) : Prop where
  distinct : (Entries.keys r.engines).Nodup
  made : ∀ {name e}, r.engine? name = some e → Engine.ofRules e.rules r.settings = .ok e

theorem sound_empty (settings : Settings) : (empty settings).Sound :=
  ⟨List.nodup_nil, nofun⟩

/-- A registry stays sound when an engine made of its rules is put under a name. -/
theorem Sound.put (h : r.Sound) (he : Engine.ofRules e.rules r.settings = .ok e) (name : String) :
    (r.put name e).Sound := by
  refine ⟨Entries.nodup_keys_put e h.distinct, fun {other e'} he' => ?_⟩
  by_cases hother : other = name
  · subst hother
    rw [engine?, Registry.put, Entries.get?_put_self] at he'
    exact Option.some.inj he' ▸ he
  · rw [engine?, Registry.put, Entries.get?_put_of_ne hother] at he'
    exact h.made he'

theorem Sound.remove (h : r.Sound) (name : String) : (r.remove name).Sound := by
  refine ⟨Entries.nodup_keys_erase name h.distinct, fun {other e'} he' => ?_⟩
  by_cases hother : other = name
  · subst hother
    rw [engine?, Registry.remove, Entries.get?_erase_self] at he'
    cases he'
  · rw [engine?, Registry.remove, Entries.get?_erase_of_ne hother] at he'
    exact h.made he'

/-- An engine put under a name has its rules there. -/
theorem rulesOf_put (r : Registry) (name : String) (e : Engine) :
    (r.put name e).rulesOf = Function.update r.rulesOf name (some e.rules) := by
  funext other
  by_cases hother : other = name
  · subst hother
    rw [Function.update_self, rulesOf, engine?, put, Entries.get?_put_self]
    rfl
  · rw [Function.update_of_ne hother, rulesOf, engine?, put, Entries.get?_put_of_ne hother]
    rfl

/-- A name that is removed has no rules. -/
theorem rulesOf_remove (r : Registry) (name : String) :
    (r.remove name).rulesOf = Function.update r.rulesOf name none := by
  funext other
  by_cases hother : other = name
  · subst hother
    rw [Function.update_self, rulesOf, engine?, remove, Entries.get?_erase_self]
    rfl
  · rw [Function.update_of_ne hother, rulesOf, engine?, remove, Entries.get?_erase_of_ne hother]
    rfl

theorem contains_eq (r : Registry) (name : String) : r.contains name = (r.rulesOf name).isSome := by
  rw [contains, rulesOf, Option.isSome_map]

/-- The names listed are the ones that have rules. -/
theorem mem_names_iff : name ∈ r.names ↔ (r.rulesOf name).isSome = true := by
  rw [names, List.mem_mergeSort, ← contains_eq, contains, engine?, Entries.isSome_get?_iff]

/-- The names are listed in order, each once. -/
theorem names_sorted (h : r.Sound) : r.names.Pairwise (· < ·) := Text.pairwise_sorted h.distinct

/-- Registering refuses a name that is taken first, then rules without a graph. -/
theorem register_outcome (r : Registry) (name : String) (rules : Value) (replace : Bool) :
    (r.register name rules replace).outcome.1 =
      if r.contains name && !replace then .error (.nameTaken name)
      else match Engine.ofRules rules r.settings with
      | .ok e => .ok (e, r.put name e)
      | .error err => .error (.rules err) := by
  rw [register]
  split
  · rfl
  · cases Engine.ofRules rules r.settings <;> rfl

end Registry

end RuleTree
