import RuleTree.Proofs.Http.Commands
import RuleTree.Proofs.Http.Standard
/-!
# Sessions

Well-formed requests on rule sets are commands (`Http.Asks`), and the service refines the map that
they make : its registry is sound and has the rules of the map, from the start without rule sets
and after every request (`Http.Service.Holds`). Each request is answered as its command deserves
(`Http.answers_of_session`). All that is asked of the framework is what it documents.
-/

namespace RuleTree

namespace Http

open Rules

/-! ## Requests -/

/-- A name that can stand in a path. -/
structure Placed (name : String) : Prop where
  ne_empty : name ≠ ""
  no_slash : '/' ∉ name.toList

/-- A well-formed request asks for a command. The body of rules to register is an object with
values of the right kinds, and no list in the rules is so long that a position in it cannot be
written. To use a rule set, the request may have any query and body, also ones that are refused. -/
inductive Asks : Request → Command → Prop
  | list {query : List (String × String)} {body : Option Value} :
    Asks ⟨"GET", ruleSetsPath, query, body⟩ .list
  | register {query : List (String × String)} {body : Value} {form : RuleSetForm}
    (conforms : Conforms Form.ruleSetFields body [.str form.name, form.rules, .bool form.replace])
    (writable : isWritable form.rules = true) :
    Asks ⟨"POST", ruleSetsPath, query, some body⟩ (.register form)
  | display {query : List (String × String)} {body : Option Value} {name : String}
    (placed : Placed name) : Asks ⟨"GET", ruleSetsFront ++ name, query, body⟩ (.display name)
  | remove {query : List (String × String)} {body : Option Value} {name : String}
    (placed : Placed name) : Asks ⟨"DELETE", ruleSetsFront ++ name, query, body⟩ (.remove name)
  | use {query : List (String × String)} {body : Option Value} {method name part : String}
    {e : RuleSetEndpoint} (placed : Placed name) (mem : (method, part, e) ∈ parts)
    (ne_empty : part ≠ "") :
    Asks ⟨method, ruleSetsFront ++ name ++ part, query, body⟩ (.use name part)

/-! ## Places of rule sets -/

/-- The places of the parts are declared. -/
theorem mem_declarations_of_mem_parts : ∀ part ∈ parts,
    (⟨part.1, .named ruleSetsFront part.2.1, .ruleSets part.2.2⟩ : Declaration) ∈ declarations := by
  decide

/-- What stands behind a name changes no rule set. -/
theorem ne_of_mem_parts : ∀ part ∈ parts, part.2.1 ≠ "" →
    part.2.2 ≠ .create ∧ part.2.2 ≠ .remove := by
  decide

namespace Service

variable {F : Framework} {s : Service} {r : Registry} {request : Request}

section

variable {query : List (String × String)} {body : Option Value} {method name part : String}
  {e : RuleSetEndpoint} (hF : F.AsDocumented) (hs : s.registry = .ok r)
include hF hs

/-- A request on a declared place of the rule sets is answered there. -/
theorem handle_of_fits {d : Declaration} (hd : d ∈ declarations)
    (hendpoint : d.endpoint = .ruleSets e) (h : d.Fits request.method request.path name) :
    s.handle F request = ((answerRuleSets F r request name e).1,
      { registry := .ok (answerRuleSets F r request name e).2 }) := by
  rw [handle, hF.found hd h, hendpoint]
  dsimp only
  rw [answer, hs]

/-- A request on the path of the rule sets is answered without a name. -/
theorem handle_unnamed
    (hd : (⟨method, .fixed ruleSetsPath, .ruleSets e⟩ : Declaration) ∈ declarations) :
    s.handle F ⟨method, ruleSetsPath, query, body⟩ =
      ((answerRuleSets F r ⟨method, ruleSetsPath, query, body⟩ "" e).1,
        { registry := .ok (answerRuleSets F r ⟨method, ruleSetsPath, query, body⟩ "" e).2 }) :=
  handle_of_fits hF hs hd rfl ⟨rfl, .fixed ruleSetsPath⟩

/-- A request on a part behind a name is answered there for the name. -/
theorem handle_part (hname : Placed name) (hpart : (method, part, e) ∈ parts) :
    s.handle F ⟨method, ruleSetsFront ++ name ++ part, query, body⟩ =
      ((answerRuleSets F r ⟨method, ruleSetsFront ++ name ++ part, query, body⟩ name e).1,
        { registry := .ok
            (answerRuleSets F r ⟨method, ruleSetsFront ++ name ++ part, query, body⟩ name e).2 }) :=
  handle_of_fits hF hs (mem_declarations_of_mem_parts _ hpart) rfl
    ⟨rfl, .named hname.ne_empty hname.no_slash ruleSetsFront part⟩

/-- A request on the path of a name is answered for the name. -/
theorem handle_named (hname : Placed name) (hpart : (method, "", e) ∈ parts) :
    s.handle F ⟨method, ruleSetsFront ++ name, query, body⟩ =
      ((answerRuleSets F r ⟨method, ruleSetsFront ++ name, query, body⟩ name e).1,
        { registry := .ok
            (answerRuleSets F r ⟨method, ruleSetsFront ++ name, query, body⟩ name e).2 }) := by
  have h : s.handle F ⟨method, ruleSetsFront ++ name ++ "", query, body⟩ = _ :=
    handle_part hF hs hname hpart
  rwa [String.append_empty] at h

end

/-- Only creating and removing change the registry. -/
theorem snd_answerRuleSets {name : String} {e : RuleSetEndpoint} (hcreate : e ≠ .create)
    (hremove : e ≠ .remove) : (answerRuleSets F r request name e).2 = r := by
  cases e with
  | create => exact absurd rfl hcreate
  | remove => exact absurd rfl hremove
  | _ => rfl

/-- A request is served as the command that it asks for. -/
theorem exists_served (hF : F.AsDocumented) (hs : s.registry = .ok r) (h : r.Sound) {c : Command}
    (hask : Asks request c) : ∃ result, Served r c result ∧
      s.handle F request = (result.1, { registry := .ok result.2 }) := by
  cases hask with
  | list => exact ⟨_, served_list h, handle_unnamed hF hs (e := .list) (by decide)⟩
  | @register query body form conforms writable =>
    have hcreate : answerRuleSets F r ⟨"POST", ruleSetsPath, query, some body⟩ "" .create =
        answerRegister F r form := by
      rw [answerRuleSets, answerCreate, Option.bind_some, hF.accepts conforms]
      rfl
    refine ⟨_, served_register hF h writable, ?_⟩
    rw [handle_unnamed hF hs (e := .create) (by decide), hcreate]
  | @display query body name placed =>
    exact ⟨_, served_display hF h name, handle_named hF hs placed (e := .display) (by decide)⟩
  | @remove query body name placed =>
    exact ⟨_, served_remove h name, handle_named hF hs placed (e := .remove) (by decide)⟩
  | @use query body method name part e placed mem ne_empty =>
    obtain ⟨hcreate, hremove⟩ := ne_of_mem_parts (method, part, e) mem ne_empty
    refine ⟨_, served_use h name part (answerRuleSets F r
      ⟨method, ruleSetsFront ++ name ++ part, query, body⟩ name e).1, ?_⟩
    rw [handle_part hF hs placed mem, snd_answerRuleSets hcreate hremove]

/-! ## Sessions -/

/-- The registry of a service is sound, makes engines with given settings and has the rules of
a map. -/
def Holds (settings : Settings) (s : Service) (M : RuleMap) : Prop :=
  ∃ r, s.registry = .ok r ∧ r.Sound ∧ r.settings = settings ∧ r.rulesOf = M

/-- A service without rule sets. -/
def fresh (settings : Settings) : Service := { registry := .ok (Registry.empty settings) }

/-- The service after requests. -/
def after (F : Framework) (s : Service) (requests : List Request) : Service :=
  requests.foldl (fun s request => (s.handle F request).2) s

variable {settings : Settings} {M : RuleMap} {c : Command}

theorem holds_fresh (settings : Settings) : (fresh settings).Holds settings .empty :=
  ⟨_, rfl, Registry.sound_empty settings, rfl, rfl⟩

/-- One request is one command on the map. -/
theorem Holds.handle (hF : F.AsDocumented) (h : s.Holds settings M) (hask : Asks request c) :
    (s.handle F request).2.Holds settings (c.after M) ∧
      (c.Refused M → (s.handle F request).2 = s) ∧ c.Answers M (s.handle F request).1 := by
  obtain ⟨r, hs, hsound, hsettings, rfl⟩ := h
  obtain ⟨result, hserved, hhandle⟩ := exists_served hF hs hsound hask
  rw [hhandle]
  refine ⟨⟨result.2, rfl, hserved.sound, hserved.settings.trans hsettings, hserved.rules⟩,
    fun hrefused => ?_, hserved.answers⟩
  rw [hserved.refused hrefused, ← hs]

/-- Requests are their commands on the map, one after the other. -/
theorem Holds.after (hF : F.AsDocumented) {requests : List Request} {commands : List Command}
    (hsession : List.Forall₂ Asks requests commands) : ∀ {s : Service} {M : RuleMap},
      s.Holds settings M →
        (s.after F requests).Holds settings (commands.foldl Command.after M) := by
  induction hsession with
  | nil => exact id
  | cons hask _ ih => exact fun h => ih (h.handle hF hask).1

end Service

/-- In a session of well-formed requests, from no rule sets on, the rule sets are those of the map
that the commands make, and a request is answered as its command deserves. A refused command
changes nothing. -/
theorem answers_of_session {F : Framework} (hF : F.AsDocumented) (settings : Settings)
    {requests : List Request} {commands : List Command}
    (hsession : List.Forall₂ Asks requests commands) {s : Service} {M : RuleMap}
    (hs : s = (Service.fresh settings).after F requests)
    (hM : M = commands.foldl Command.after .empty) {request : Request} {c : Command}
    (hask : Asks request c) :
    s.Holds settings M ∧ (s.handle F request).2.Holds settings (c.after M) ∧
      (c.Refused M → (s.handle F request).2 = s) ∧ c.Answers M (s.handle F request).1 := by
  subst hs hM
  have hholds := (Service.holds_fresh settings).after hF hsession
  exact ⟨hholds, hholds.handle hF hask⟩

/-- A rule that reads one fact. -/
def salesRules : Value := .ofEntries [("total", .ofEntries [("var", .str "price")])]

/-- The rule under a name, without the leave to replace another. -/
def salesForm : RuleSetForm := ⟨"sales", salesRules, false⟩

/-- The body that asks to register the rule; the leave to replace is missing. -/
def salesBody : Value := .ofEntries [("name", .str "sales"), ("rules", salesRules)]

/-- The request to register the rule. -/
def registerSales : Request := ⟨"POST", ruleSetsPath, [], some salesBody⟩

theorem asks_registerSales : Asks registerSales (.register salesForm) := by
  refine .register ⟨_, _, rfl, ?_⟩ (by decide)
  refine .cons (Or.inl ⟨rfl, by decide⟩) (.cons (Or.inl ⟨rfl, by decide⟩) (.cons ?_ .nil))
  exact Or.inr ⟨rfl, rfl⟩

/-- Registered once more, the rule is refused. -/
theorem answers_of_registerSales : ∃ F : Framework, F = .standard (fun _ => true) ∧
    F.AsDocumented ∧ List.Forall₂ Asks [registerSales] [.register salesForm] ∧
    Asks registerSales (.register salesForm) ∧
    ∃ s, s = (Service.fresh .standard).after F [registerSales] ∧
      s.Holds .standard (Function.update RuleMap.empty "sales" (some salesRules)) ∧
      s.handle F registerSales =
        (.detail 409 "규칙 묶음 'sales'이(가) 이미 등록되어 있습니다", s) := by
  have hF : (Framework.standard fun _ => true).AsDocumented := asDocumented_standard fun _ _ => rfl
  have hsession := List.Forall₂.cons asks_registerSales .nil
  have haccepted : ¬ (salesForm.Conflicts .empty ∨ LacksPath salesForm.rules) := by decide
  have hM : Function.update RuleMap.empty "sales" (some salesRules) =
      [Command.register salesForm].foldl Command.after .empty := by
    rw [List.foldl_cons, List.foldl_nil, Command.after, if_neg haccepted]
    rfl
  have hconflict :
      salesForm.Conflicts (Function.update RuleMap.empty "sales" (some salesRules)) := by
    decide
  refine ⟨_, rfl, hF, hsession, asks_registerSales, _, rfl, ?_⟩
  obtain ⟨hholds, -, hrefused, hanswer⟩ :=
    answers_of_session hF .standard hsession rfl hM asks_registerSales
  rw [Command.Answers, if_pos hconflict] at hanswer
  exact ⟨hholds, Prod.ext hanswer (hrefused (Or.inl hconflict))⟩

end Http

end RuleTree
