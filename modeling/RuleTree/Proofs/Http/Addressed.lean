import RuleTree.Proofs.Http.Session
/-!
# Names of rule sets in paths

A rule set that was registered is shown and removed under the path of its name exactly if the
name has no slash (`Http.Service.addresses_iff`). A form only asks that the name is not empty, but
no place is found with a slash in its name. So the path of such a name never leads to the rule
set, and the name stays in the list whatever is asked for there (`Http.Service.Hides`).
-/

namespace RuleTree

namespace Http

/-! ## Fields of responses -/

/-- A field of the body. -/
def Response.field? (response : Response) (key : String) : Option Value :=
  match response.body with
  | .map _ entries => Entries.get? key entries
  | _ => none

theorem Response.field?_detail {status : Nat} {key : String} (hkey : key ≠ "detail")
    (text : String) : (detail status text).field? key = none := if_neg hkey.symm

/-- A response that could be written has the fields that it was made of. -/
theorem field?_of_respond {F : Framework} {status : Nat} {values : List Value}
    {fields : List (String × Value)} {key : String} {v : Value}
    (h : (F.respond status values fields).field? key = some v) :
    Entries.get? key fields = some v := by
  rw [Framework.respond] at h
  split at h
  · exact h
  · cases h

theorem field?_name_evalFailure (start : String) (e : EvalError) :
    (evalFailure start e).field? "name" = none := by
  rw [evalFailure]
  split
  · exact Response.field?_detail (by decide) _
  · rfl

theorem field?_name_engineFailure (start : String) (e : EngineError) :
    (engineFailure start e).field? "name" = none := by
  cases e with
  | evaluation e => exact field?_name_evalFailure start e
  | propagation e =>
    rw [engineFailure]
    split
    · exact Response.field?_detail (by decide) _
    · rfl
  | _ => rfl

/-- What an answer for the engine of a rule set names is what the answer made of it names. -/
theorem field?_name_withEngine {r : Registry} {name : String} {answer : Engine → Response}
    {v : Value} (h : (withEngine r name answer).field? "name" = some v) :
    ∃ e, (answer e).field? "name" = some v := by
  rw [withEngine] at h
  split at h
  · next e _ => exact ⟨e, h⟩
  · rw [noRuleSet, Response.field?_detail (by decide)] at h
    cases h

/-- What the answer to a form names is what the answer made of the form names. -/
theorem field?_name_withForm {α : Type} {F : Framework} {fields : List Field}
    {read : List Value → Option α} {body : Option Value} {answer : α → Response} {v : Value}
    (h : (F.withForm fields read body answer).field? "name" = some v) :
    ∃ form, (answer form).field? "name" = some v := by
  rw [Framework.withForm] at h
  split at h
  · next form _ => exact ⟨form, h⟩
  · cases h

/-! ## Requests on a place -/

variable {F : Framework} {r : Registry} {request : Request}

/-- The places that answer `GET` and those that answer `DELETE`. -/
theorem endpoint_of_get : ∀ d ∈ declarations, d.method = "GET" → d.endpoint = .health ∨
    ∃ e ∈ [.overview, .list, .display, .graph, .propagate], d.endpoint = .ruleSets e := by
  decide

theorem endpoint_of_delete : ∀ d ∈ declarations, d.method = "DELETE" →
    d.endpoint = .ruleSets .remove := by
  decide

/-- An answer to `GET` that has a name has the name in the path. -/
theorem name_of_field?_name {e : RuleSetEndpoint} {name other : String}
    (he : e ∈ [.overview, .list, .display, .graph, .propagate])
    (h : (answerRuleSets F r request name e).1.field? "name" = some (.str other)) :
    other = name := by
  rw [answerRuleSets.eq_def] at h
  simp only [List.mem_cons, List.not_mem_nil, or_false] at he
  rcases he with rfl | rfl | rfl | rfl | rfl
  · cases h
  · cases h
  · obtain ⟨e, he⟩ := field?_name_withEngine h
    cases field?_of_respond he
    rfl
  · obtain ⟨form, hform⟩ := field?_name_withForm h
    obtain ⟨e, he⟩ := field?_name_withEngine hform
    cases field?_of_respond he
    rfl
  · obtain ⟨form, hform⟩ := field?_name_withForm h
    obtain ⟨e, he⟩ := field?_name_withEngine hform
    dsimp only at he
    split at he
    · rw [field?_name_engineFailure] at he
      cases he
    · split at he <;> cases he

/-- Removing one name leaves another one in place. -/
theorem contains_answerRemove {name other : String} (hname : other ≠ name)
    (h : r.contains other = true) : (answerRemove r name).2.contains other = true := by
  rw [answerRemove]
  split
  · rw [Registry.contains, Registry.engine?, Registry.remove, Entries.get?_erase_of_ne hname]
    exact h
  · exact h

/-- Rules that are registered with the answer 201 have an engine, which is put under the name. -/
theorem exists_of_answerRegister {form : RuleSetForm}
    (h : (answerRegister F r form).1.status = 201) :
    ∃ e, Engine.ofRules form.rules r.settings = .ok e ∧
      answerRegister F r form = (showRuleSet F 201 form.name e, r.put form.name e) := by
  rw [answerRegister, r.register_outcome] at h ⊢
  split_ifs at h ⊢
  · cases h
  · cases he : Engine.ofRules form.rules r.settings with
    | error err =>
      rw [he] at h
      cases h
    | ok e => exact ⟨e, rfl, rfl⟩

/-- The name of a form is not empty. -/
theorem name_ne_empty (hF : F.AsDocumented) {body : Value} {values : List Value}
    {form : RuleSetForm} (hvalues : F.validate Form.ruleSetFields body = some values)
    (hform : Form.ruleSet? values = some form) : form.name ≠ "" := by
  have htyped := hF.typed hvalues
  rw [Form.ruleSet?.eq_def] at hform
  split at hform
  · next name rules replace =>
    cases hform
    rintro rfl
    cases htyped with
    | cons hname _ => rcases hname with hhas | hstandard <;> contradiction
  · cases hform

namespace Service

variable {s s' : Service} {query : List (String × String)} {body : Option Value} {name : String}

/-- The names that a service lists. -/
def Lists (F : Framework) (s : Service) (names : List String) : Prop := ∀ query body,
  (s.handle F ⟨"GET", ruleSetsPath, query, body⟩).1 =
    .json 200 [("names", .ofTexts names), ("total", .int names.length)]

/-- The path of a name leads to the rule set that was created with an answer : it is shown there
with the name and the rule paths of that answer, and removed from the list. -/
structure Addresses (F : Framework) (s : Service) (name : String) (created : Response) : Prop where
  display : ∀ query body, ∃ shown,
    s.handle F ⟨"GET", ruleSetsFront ++ name, query, body⟩ = (shown, s) ∧
      shown.status = 200 ∧ shown.field? "name" = created.field? "name" ∧
      shown.field? "rule_paths" = created.field? "rule_paths"
  remove : ∀ query body, ∃ s' names,
    s.handle F ⟨"DELETE", ruleSetsFront ++ name, query, body⟩ = (.bare 204, s') ∧
      s'.Lists F names ∧ name ∉ names

/-- Nothing that is asked for under the path of a name shows a rule set of this name, or removes
it from the list. -/
structure Hides (F : Framework) (s : Service) (name : String) : Prop where
  display : ∀ query body,
    (s.handle F ⟨"GET", ruleSetsFront ++ name, query, body⟩).1.status = 200 →
      (s.handle F ⟨"GET", ruleSetsFront ++ name, query, body⟩).1.field? "name" ≠
        some (.str name)
  remove : ∀ query body, ∃ names,
    (s.handle F ⟨"DELETE", ruleSetsFront ++ name, query, body⟩).2.Lists F names ∧ name ∈ names

/-- A name that is hidden is not addressed. -/
theorem Hides.not_addresses {created : Response} (h : s.Hides F name)
    (hname : created.field? "name" = some (.str name)) : ¬ s.Addresses F name created := by
  intro haddresses
  obtain ⟨shown, hget, hstatus, hsame, -⟩ := haddresses.display [] none
  have hdisplay := h.display [] none
  rw [hget] at hdisplay
  exact hdisplay hstatus (hsame.trans hname)

section

variable (hF : F.AsDocumented)
include hF

theorem lists_names (hs : s.registry = .ok r) : s.Lists F r.names := by
  intro query body
  rw [handle_unnamed hF hs (e := .list) (by decide)]
  rfl

/-- A name in the registry is listed. -/
theorem exists_lists (hs : s.registry = .ok r) (hcontains : r.contains name = true) :
    ∃ names, s.Lists F names ∧ name ∈ names := by
  rw [r.contains_eq, ← Registry.mem_names_iff] at hcontains
  exact ⟨r.names, lists_names hF hs, hcontains⟩

/-- A request to register that is answered with 201 puts the engine under the name. -/
theorem exists_of_created
    (h : (s.handle F ⟨"POST", ruleSetsPath, query, body⟩).1.status = 201) :
    ∃ r form e, s.registry = .ok r ∧
      (body.bind (F.validate Form.ruleSetFields)).bind Form.ruleSet? = some form ∧
      Engine.ofRules form.rules r.settings = .ok e ∧
      s.handle F ⟨"POST", ruleSetsPath, query, body⟩ =
        (showRuleSet F 201 form.name e, { registry := .ok (r.put form.name e) }) := by
  have hd : (⟨"POST", .fixed ruleSetsPath, .ruleSets .create⟩ : Declaration) ∈ declarations := by
    decide
  cases hs : s.registry with
  | error err =>
    rw [handle, hF.found hd ⟨rfl, .fixed ruleSetsPath⟩] at h
    dsimp only at h
    rw [answer, hs] at h
    cases h
  | ok r =>
    rw [handle_unnamed hF hs hd, answerRuleSets, answerCreate] at h ⊢
    dsimp only at h ⊢
    cases hform : (body.bind (F.validate Form.ruleSetFields)).bind Form.ruleSet? with
    | none =>
      rw [hform] at h
      cases h
    | some form =>
      rw [hform] at h
      obtain ⟨e, he, hregister⟩ := exists_of_answerRegister h
      refine ⟨r, form, e, rfl, rfl, he, ?_⟩
      dsimp only
      rw [hregister]

/-- A rule set that is shown with any status has the same name and rule paths. -/
theorem field?_showRuleSet {rules : Value} {settings : Settings} {e : Engine}
    (he : Engine.ofRules rules settings = .ok e) (status : Nat) (name : String) :
    (showRuleSet F status name e).status = status ∧
      (showRuleSet F status name e).field? "name" = some (.str name) ∧
      (showRuleSet F status name e).field? "rule_paths" = some (.ofTexts (Rules.paths rules)) := by
  obtain ⟨g, -, hshown⟩ := shows_showRuleSet hF he status name
  rw [hshown]
  exact ⟨rfl, rfl, rfl⟩

/-- The path of a name without a slash leads to the rule set of this name. -/
theorem addresses_of_placed {rules : Value} {settings : Settings} {e : Engine}
    (hname : Placed name) (hs : s.registry = .ok r) (hengine : r.engine? name = some e)
    (he : Engine.ofRules rules settings = .ok e) :
    s.Addresses F name (showRuleSet F 201 name e) := by
  obtain ⟨-, hname201, hpaths201⟩ := field?_showRuleSet hF he 201 name
  obtain ⟨hstatus, hname200, hpaths200⟩ := field?_showRuleSet hF he 200 name
  constructor
  · intro query body
    refine ⟨showRuleSet F 200 name e, ?_, hstatus, hname200.trans hname201.symm,
      hpaths200.trans hpaths201.symm⟩
    rw [handle_named hF hs hname (e := .display) (by decide), answerRuleSets, withEngine, hengine,
      ← hs]
  · intro query body
    have hcontains : r.contains name = true := by
      rw [Registry.contains, hengine]
      rfl
    refine ⟨{ registry := .ok (r.remove name) }, _, ?_, lists_names hF rfl, ?_⟩
    · rw [handle_named hF hs hname (e := .remove) (by decide), answerRuleSets, answerRemove,
        if_pos hcontains]
    · rw [Registry.mem_names_iff, ← Registry.contains_eq, Registry.contains, Registry.engine?,
        Registry.remove, Entries.get?_erase_self]
      exact Bool.false_ne_true

/-- A name with a slash is hidden. -/
theorem hides_of_slash (hslash : '/' ∈ name.toList) (hs : s.registry = .ok r)
    (hcontains : r.contains name = true) : s.Hides F name := by
  constructor
  · intro query body hstatus h
    rw [handle] at hstatus h
    dsimp only at hstatus h
    cases hfound : F.dispatch declarations "GET" (ruleSetsFront ++ name) with
    | error response =>
      rw [hfound] at hstatus
      have hrefused := hF.refused hfound
      rw [hstatus] at hrefused
      exact absurd hrefused (by decide)
    | ok found =>
      obtain ⟨endpoint, other⟩ := found
      obtain ⟨⟨d, hd, hmethod, rfl⟩, hother⟩ := hF.declared hfound
      rw [hfound] at h
      dsimp only at h
      rcases endpoint_of_get d hd hmethod with hendpoint | ⟨e, he, hendpoint⟩ <;>
        rw [hendpoint, answer] at h
      · cases h
      · rw [hs] at h
        obtain rfl := name_of_field?_name he h
        exact hother hslash
  · intro query body
    rw [handle]
    dsimp only
    cases hfound : F.dispatch declarations "DELETE" (ruleSetsFront ++ name) with
    | error response => exact exists_lists hF hs hcontains
    | ok found =>
      obtain ⟨endpoint, other⟩ := found
      obtain ⟨⟨d, hd, hmethod, rfl⟩, hother⟩ := hF.declared hfound
      rw [endpoint_of_delete d hd hmethod]
      dsimp only
      rw [answer, hs]
      refine exists_lists hF rfl (contains_answerRemove ?_ hcontains)
      rintro rfl
      exact hother hslash

/-- A rule set that was registered can be addressed by its name exactly if the name has no slash.
Else it is hidden. -/
theorem addresses_iff {created : Response}
    (h : s.handle F ⟨"POST", ruleSetsPath, query, body⟩ = (created, s'))
    (hcreated : created.status = 201) :
    ∃ form, (body.bind (F.validate Form.ruleSetFields)).bind Form.ruleSet? = some form ∧
      created.field? "name" = some (.str form.name) ∧
      created.field? "rule_paths" = some (.ofTexts (Rules.paths form.rules)) ∧
      (s'.Addresses F form.name created ↔ '/' ∉ form.name.toList) ∧
      ('/' ∈ form.name.toList → s'.Hides F form.name) := by
  obtain ⟨r, form, e, -, hform, he, hhandle⟩ :=
    exists_of_created hF ((congrArg (·.1.status) h).trans hcreated)
  obtain ⟨rfl, rfl⟩ := Prod.mk.inj (hhandle.symm.trans h)
  obtain ⟨-, hname, hpaths⟩ := field?_showRuleSet hF he 201 form.name
  have hengine : (r.put form.name e).engine? form.name = some e := Entries.get?_put_self ..
  have hcontains : (r.put form.name e).contains form.name = true := by
    rw [Registry.contains, hengine]
    rfl
  have hempty : form.name ≠ "" := by
    obtain ⟨values, hvalues, hform⟩ := Option.bind_eq_some_iff.mp hform
    obtain ⟨v, -, hvalues⟩ := Option.bind_eq_some_iff.mp hvalues
    exact name_ne_empty hF hvalues hform
  have hhides : '/' ∈ form.name.toList → _ := fun hslash => hides_of_slash hF hslash rfl hcontains
  refine ⟨form, hform, hname, hpaths, ⟨fun haddresses hslash => ?_, fun hslash => ?_⟩, hhides⟩
  · exact (hhides hslash).not_addresses hname haddresses
  · exact addresses_of_placed hF ⟨hempty, hslash⟩ rfl hengine he

end

/-- The body of a request to register one rule under a name. -/
def salesUnder (name : String) : Value := .ofEntries [("name", .str name), ("rules", salesRules)]

/-- Two dots are a name like others to the service. -/
theorem addresses_of_registerDots : ∃ F : Framework, F = .standard (fun _ => true) ∧
    F.AsDocumented ∧ ∃ created s', (fresh .standard).handle F
      ⟨"POST", ruleSetsPath, [], some (salesUnder "..")⟩ = (created, s') ∧
        created.status = 201 ∧ s'.Addresses F ".." created := by
  have hF : (Framework.standard fun _ => true).AsDocumented := asDocumented_standard fun _ _ => rfl
  obtain ⟨created, s', h⟩ : ∃ created s', (fresh .standard).handle (.standard fun _ => true)
    ⟨"POST", ruleSetsPath, [], some (salesUnder "..")⟩ = (created, s') := ⟨_, _, rfl⟩
  have hcreated : created.status = 201 := congrArg (·.1.status) h.symm
  obtain ⟨form, hform, -, -, haddresses, -⟩ := addresses_iff hF h hcreated
  obtain rfl : ⟨"..", salesRules, false⟩ = form := Option.some.inj hform
  exact ⟨_, rfl, hF, created, s', h, hcreated, haddresses.mpr (by decide)⟩

/-- A rule set is registered under a name with a slash and listed, but neither shown nor removed
under the path of its name. -/
theorem not_addresses_of_registerSlash : ∃ F : Framework, F = .standard (fun _ => true) ∧
    F.AsDocumented ∧ ∃ created s', (fresh .standard).handle F
      ⟨"POST", ruleSetsPath, [], some (salesUnder "sales/eu")⟩ = (created, s') ∧
        created.status = 201 ∧ created.field? "name" = some (.str "sales/eu") ∧
        (∃ names, s'.Lists F names ∧ "sales/eu" ∈ names) ∧
        (∀ method ∈ ["GET", "DELETE"],
          s'.handle F ⟨method, ruleSetsFront ++ "sales/eu", [], none⟩ =
            (.detail 404 "Not Found", s')) ∧
        ¬ s'.Addresses F "sales/eu" created := by
  have hF : (Framework.standard fun _ => true).AsDocumented := asDocumented_standard fun _ _ => rfl
  have hnone : ∀ method ∈ ["GET", "DELETE"], (Framework.standard fun _ => true).dispatch
      declarations method (ruleSetsFront ++ "sales/eu") = .error (.detail 404 "Not Found") := by
    simp only [List.mem_cons, List.not_mem_nil, or_false]
    rintro method (rfl | rfl) <;> rfl
  have hhandle : ∀ (s' : Service), ∀ method ∈ ["GET", "DELETE"],
      s'.handle (.standard fun _ => true) ⟨method, ruleSetsFront ++ "sales/eu", [], none⟩ =
        (.detail 404 "Not Found", s') := by
    intro s' method hmethod
    rw [handle]
    dsimp only
    rw [hnone method hmethod]
  refine ⟨_, rfl, hF, _, { registry := .ok _ }, rfl, rfl, rfl, ⟨_, lists_names hF rfl, ?_⟩,
    hhandle _, fun haddresses => ?_⟩
  · rw [Registry.mem_names_iff]
    rfl
  · obtain ⟨shown, hshown, hstatus, -⟩ := haddresses.display [] none
    rw [hhandle _ "GET" (by decide)] at hshown
    obtain ⟨rfl, -⟩ := Prod.mk.inj hshown
    cases hstatus

end Service

end Http

end RuleTree
