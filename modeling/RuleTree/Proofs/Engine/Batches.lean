import RuleTree.Proofs.Expr.Renamed
import RuleTree.Proofs.Rules.Descent
import RuleTree.Proofs.Engine.Faults
import Mathlib.Logic.Equiv.Basic
/-!
# Batches and single runs

A batch puts a new empty map in the place of missing facts and of facts that are an empty map, and
is otherwise the single runs of its entries, one after the other, without a report
(`Engine.batches_agree`). A single run keeps an empty map that it is given. The two maps are
different containers and alike otherwise, so the outcomes are alike, apart from the containers in
the results (`Engine.map_shape_answer_filled`), unless the empty map is a container of the rules :
then a rule can tell the two (`Engine.sharedRules`). A drill has the outcomes
of single runs at the paths that it goes through, and no call but the one for it changes the
snapshot.
-/

namespace RuleTree

/-! ## Containers of a rule -/

namespace Rules

variable {rules rule : Value} {path : Path}

/-- What lies in a value has no containers but those of the value. -/
theorem LiesAt.idents_subset {v w : Value} {address : Path} (h : LiesAt v address w) :
    w.idents ⊆ v.idents := by
  induction h with
  | here v => exact List.Subset.refl _
  | entry hget _ ih =>
    refine List.Subset.trans ih (Value.idents_subset_of_mem_children ?_)
    exact List.mem_map.mpr ⟨_, Entries.mem_of_get? hget, rfl⟩
  | item _ hget _ ih =>
    exact List.Subset.trans ih (Value.idents_subset_of_mem_children (List.mem_of_getElem? hget))

/-- The containers of a rule that is found are containers of the rules. -/
theorem idents_subset_of_find (h : find path rules = .ok rule) : rule.idents ⊆ rules.idents := by
  obtain ⟨reached, hreached, rfl⟩ := exists_descend_of_find h
  obtain ⟨address, -, hlies⟩ := exists_address_of_descend hreached
  unfold ruleOf
  split
  · exact hlies.idents_subset
  · exact List.nil_subset _

end Rules

/-! ## Facts -/

/-- Facts as they are given to a run: none, or a map. -/
inductive FactsOrNone : Value → Prop
  | none : FactsOrNone .null
  | map (id : Ident) (entries : List (String × Value)) : FactsOrNone (.map id entries)

/-- Facts with a new empty map in the place of none and of an empty map. -/
def filled : Value → Value
  | .null => .ofEntries []
  | .map _ [] => .ofEntries []
  | facts => facts

/-- A container is apart from rules: it is none of their containers, and neither they nor it were
made by an evaluation. -/
structure Apart (rules : Value) (id : Ident) : Prop where
  not_mem : id ∉ rules.idents
  not_made : ∀ i ∈ id :: rules.idents, i.isMade = false

/-- An input is numbered all through, so a map anywhere in a part of it behind the rules is apart
from the rules. -/
theorem Apart.of_numbered {input rules part : Value} {id : Ident} {entries : List (String × Value)}
    {n : Nat} {address : Path}
    (hparts : [rules, part].Sublist (input.numbered Ident.given n).1.children)
    (hlies : Rules.LiesAt part address (.map id entries)) : Apart rules id := by
  have hid : id ∈ part.idents := hlies.idents_subset (Value.idents_map id entries ▸ by simp)
  have hsub : (rules.idents ++ part.idents).Sublist (input.numbered Ident.given n).1.idents := by
    simpa using (hparts.flatMap Value.idents).trans (Value.idents_children _)
  have hnodup := (Value.nodup_idents_numbered (fun _ _ => Ident.given.inj) input n).sublist hsub
  have hmade : ∀ i ∈ (input.numbered Ident.given n).1.idents, i.isMade = false := by
    obtain ⟨k, -, hids⟩ := Value.idents_numbered Ident.given input n
    rw [hids]
    exact List.forall_mem_map.mpr fun _ _ => rfl
  refine ⟨fun hrules => List.disjoint_of_nodup_append hnodup hrules hid, ?_⟩
  refine List.forall_mem_cons.mpr ⟨hmade id ?_, fun i hi => hmade i ?_⟩
  · exact hsub.subset (List.mem_append_right _ hid)
  · exact hsub.subset (List.mem_append_left _ hi)

namespace Engine

variable {e : Engine} {path facts : Value}

/-! ## Facts that hold nothing -/

theorem resolved_of_ne_null (h : facts.isNull = false) : e.resolved facts = facts := by
  rw [resolved, h]
  rfl

/-- The facts that a run goes by are none or a map, like those that it is given. -/
theorem factsOrNone_resolved (hsnapshot : FactsOrNone e.facts) (hfacts : FactsOrNone facts) :
    FactsOrNone (e.resolved facts) := by
  rw [resolved]
  split
  · exact hsnapshot
  · exact hfacts

/-- Of facts that are none or a map, those that hold nothing are filled for an entry. -/
theorem entryFacts_eq (h : FactsOrNone (e.resolved facts)) :
    e.entryFacts facts = filled (e.resolved facts) := by
  have hgiven : e.entryFacts facts =
      if holdsNothing (e.resolved facts) then .ofEntries [] else e.resolved facts := rfl
  rw [hgiven]
  generalize e.resolved facts = given at *
  cases h with
  | none => rfl
  | map id entries => cases entries <;> rfl

/-- Facts are missing nowhere once they are filled. -/
theorem isNull_filled (h : FactsOrNone facts) : (filled facts).isNull = false := by
  cases h with
  | none => rfl
  | map id entries => cases entries <;> rfl

/-- An empty map in the place of another one changes the containers of a result only. -/
theorem map_shape_evaluate {rules rule : Value} (hrule : rule.idents ⊆ rules.idents) {id : Ident}
    (hapart : Apart rules id) (limit : Int) :
    (evaluate rule (.ofEntries []) limit).map Value.shape =
      (evaluate rule (.map id []) limit).map Value.shape := by
  obtain ⟨hidMade, hrulesMade⟩ := List.forall_mem_cons.mp hapart.not_made
  -- exchange the two maps; neither is in the rules or made by the evaluation
  let σ : Ident → Ident := Equiv.swap id (.made 0)
  have hσ : Value.Faithful σ :=
    ⟨(Equiv.swap id (.made 0)).injective, fun n hn => Equiv.swap_apply_of_ne_of_ne
      (Ident.ne_made hidMade n).symm fun heq => Nat.ne_of_gt hn (Ident.made.inj heq)⟩
  have hfixed : ∀ i ∈ rule.idents, σ i = i := fun i hi =>
    Equiv.swap_apply_of_ne_of_ne (fun heq => hapart.not_mem (heq ▸ hrule hi))
      (Ident.ne_made (hrulesMade i (hrule hi)) 0)
  have hfacts : (Value.map id []).renamed σ = .ofEntries [] := by
    rw [Value.renamed_map, show σ id = .made 0 from Equiv.swap_apply_left ..]
    rfl
  rw [← hfacts, evaluate_renamed hσ hfixed rfl]
  cases evaluate rule (.map id []) limit with
  | error err => rfl
  | ok v => exact congrArg Except.ok v.shape_renamed

/-- Facts that are no empty map are those of a single run. -/
theorem answer_filled (hfacts : FactsOrNone (e.resolved facts))
    (h : ∀ id, e.resolved facts ≠ .map id []) :
    e.answer path (filled (e.resolved facts)) = e.answer path facts := by
  rw [answer, answer, resolved_of_ne_null (isNull_filled hfacts)]
  generalize e.resolved facts = given at *
  cases hfacts with
  | none => rfl
  | map id entries =>
    cases entries with
    | nil => exact absurd rfl (h id)
    | cons => rfl

/-- An empty map that is apart from the rules changes the containers of the results only. -/
theorem map_shape_answer_filled (hfacts : FactsOrNone (e.resolved facts))
    (hapart : ∀ id, e.resolved facts = .map id [] → Apart e.rules id) :
    (e.answer path (filled (e.resolved facts))).map Value.shape =
      (e.answer path facts).map Value.shape := by
  by_cases h : ∀ id, e.resolved facts ≠ .map id []
  · rw [answer_filled hfacts h]
  · obtain ⟨id, hid⟩ : ∃ id, e.resolved facts = .map id [] := by simpa using h
    rw [answer, answer, resolved_of_ne_null (isNull_filled hfacts), hid]
    cases hrule : e.rule path with
    | error err => rfl
    | ok rule =>
      obtain ⟨segments, hfind⟩ := exists_find_of_rule hrule
      have hsame := map_shape_evaluate (Rules.idents_subset_of_find hfind) (hapart id hid)
        e.settings.depthLimit
      have hshape : ∀ x : Except EvalError Value, (x.mapError EngineError.evaluation).map
          Value.shape = (x.map Value.shape).mapError .evaluation := fun x => by cases x <;> rfl
      exact (hshape _).trans ((congrArg _ hsame).trans (hshape _).symm)

/-- Facts that were chosen once are not chosen again. -/
theorem resolved_resolved (e : Engine) (facts : Value) :
    e.resolved (e.resolved facts) = e.resolved facts := by
  unfold resolved
  split
  · exact ite_self _
  · rfl

/-! ## Batches -/

/-- The entry of a batch for a path, with facts of its own or without. -/
inductive Asks : Value → Value × Value → Prop
  | path {id : Ident} {path : Value} : Asks (.list id [path]) (path, .null)
  | facts {id : Ident} {path facts : Value} : Asks (.list id [path, facts]) (path, facts)

theorem Asks.entryParts {entry : Value} {q : Value × Value} (h : Asks entry q) :
    entryParts entry = .ok q := by
  cases h <;> rfl

/-- A run on facts that are given reports nothing. -/
theorem run_eq_silent (h : facts.isNull = false) :
    e.run path facts = Logged.silent (e.answer path facts) := by
  rw [answer, resolved_of_ne_null h, ← Logged.silent_bind, run]
  simp only [h, Bool.false_eq_true, if_false]

/-- An entry of a batch is a run on filled facts. -/
theorem runEntry_eq_silent {entry : Value} {q : Value × Value} (hq : Asks entry q)
    (hfacts : FactsOrNone (e.resolved q.2)) :
    e.runEntry entry = Logged.silent (e.answer q.1 (filled (e.resolved q.2))) := by
  rw [runEntry, hq.entryParts, ← run_eq_silent (isNull_filled hfacts), ← entryFacts_eq hfacts]
  rfl

/-- A batch is the runs of its entries on filled facts, and reports nothing. -/
theorem runSeveral_eq_silent (id : Ident) {entries : List Value} {asked : List (Value × Value)}
    (h : List.Forall₂ Asks entries asked) (hfacts : ∀ q ∈ asked, FactsOrNone (e.resolved q.2)) :
    e.runSeveral (.list id entries) =
      Logged.silent (asked.mapM fun q => e.answer q.1 (filled (e.resolved q.2))) := by
  rw [runSeveral, ← Logged.mapM_silent]
  induction h with
  | nil => rfl
  | cons hq _ ih =>
    obtain ⟨hq', hrest⟩ := List.forall_mem_cons.mp hfacts
    rw [List.mapM_cons, List.mapM_cons, runEntry_eq_silent hq hq', ih hrest]

/-- A drill gives what single runs give at a path and what it leads to. -/
theorem gives_drill {direction : Direction} {paths : List Value}
    (h : e.propagate path direction = .ok paths) (facts : Value) :
    (e.drill path facts direction).Gives ((path :: paths).mapM fun q => e.answer q facts) := by
  have hpaths : e.drillPaths path direction = .ok (path :: paths) := by
    rw [drillPaths, h]
    rfl
  have hrun : ∀ q, (e.run q (e.resolved facts)).Gives (e.answer q facts) := by
    intro q
    have hsame : e.answer q (e.resolved facts) = e.answer q facts := by
      rw [answer, answer, resolved_resolved]
    exact hsame ▸ e.gives_run q (e.resolved facts)
  intro log
  rw [← Logged.Gives.mapM hrun (path :: paths) log, drill, hpaths]
  rfl

/-! ## Calls one after the other -/

/-- A call of an engine. -/
inductive Call where
  | useFacts (facts : Value)
  | run (path facts : Value)
  | runSeveral (entries : Value)
  | drill (path facts : Value) (direction : Direction)

/-- The snapshot that a call puts in place. -/
def Call.used? : Call → Option Value
  | useFacts facts => some facts
  | _ => none

/-- What a call gives and reports, and the engine after it, also if it fails. -/
def perform (e : Engine) : Call → (Except EngineError (List Value) × List LogRecord) × Engine
  | .useFacts facts => ((.ok [], []), e.useFacts facts)
  | .run path facts => ((List.singleton <$> e.run path facts).outcome, e)
  | .runSeveral entries => ((e.runSeveral entries).outcome, e)
  | .drill path facts direction => ((e.drill path facts direction).outcome, e)

/-- The engine after calls one after the other. -/
def after (e : Engine) (calls : List Call) : Engine :=
  calls.foldl (fun e c => (e.perform c).2) e

/-- An engine keeps everything but its snapshot, which is the last one put in place. -/
theorem after_eq : ∀ (calls : List Call) (e : Engine),
    e.after calls = e.useFacts ((calls.filterMap Call.used?).getLast?.getD e.facts)
  | [], _ => rfl
  | c :: calls, e => by
    have hrest := after_eq calls (e.perform c).2
    cases c with
    | useFacts facts =>
      have hused : (Call.useFacts facts :: calls).filterMap Call.used? =
          facts :: calls.filterMap Call.used? := rfl
      rw [hused, List.getLast?_cons]
      exact hrest
    | _ => exact hrest

/-- A batch is the single runs of its entries in order, with a new empty map in the place of missing
facts and of an empty map, and reports nothing. So it has the outcome of single runs on the facts
that its entries give, unless these are an empty map, and apart from the containers in the results
also then, unless the empty map is a container of the rules. A drill has the outcome of single
runs at a path and what it leads to. Only the call for it changes the snapshot. -/
theorem batches_agree (e : Engine) (id : Ident) {entries : List Value}
    {asked : List (Value × Value)} (hentries : List.Forall₂ Asks entries asked)
    (hsnapshot : FactsOrNone e.facts) (hfacts : ∀ q ∈ asked, FactsOrNone q.2) :
    (e.runSeveral (.list id entries)).outcome =
      (asked.mapM fun q => (e.run q.1 (filled (e.resolved q.2))).outcome.1, []) ∧
    ((∀ q ∈ asked, ∀ id, e.resolved q.2 ≠ .map id []) →
      (e.runSeveral (.list id entries)).outcome.1 =
        asked.mapM fun q => (e.run q.1 q.2).outcome.1) ∧
    ((∀ q ∈ asked, ∀ id, e.resolved q.2 = .map id [] → Apart e.rules id) →
      (e.runSeveral (.list id entries)).outcome.1.map (List.map Value.shape) =
        (asked.mapM fun q => (e.run q.1 q.2).outcome.1).map (List.map Value.shape)) ∧
    (∀ path facts direction paths, e.propagate path direction = .ok paths →
      (e.drill path facts direction).outcome.1 =
        (path :: paths).mapM fun q => (e.run q facts).outcome.1) ∧
    ∀ calls : List Call,
      e.after calls = e.useFacts ((calls.filterMap Call.used?).getLast?.getD e.facts) := by
  have hresolved : ∀ q ∈ asked, FactsOrNone (e.resolved q.2) :=
    fun q hq => factsOrNone_resolved hsnapshot (hfacts q hq)
  have hrun : ∀ path facts, (e.run path facts).outcome.1 = e.answer path facts :=
    fun path facts => (e.gives_run path facts).outcome
  have hbatch : (e.runSeveral (.list id entries)).outcome =
      (asked.mapM fun q => e.answer q.1 (filled (e.resolved q.2)), []) := by
    rw [runSeveral_eq_silent id hentries hresolved]
    rfl
  simp only [hrun, hbatch]
  refine ⟨trivial, fun hnonempty => ?_, fun hapart => ?_, fun path facts direction paths h => ?_,
    fun calls => after_eq calls e⟩
  · exact mapM_congr fun q hq => answer_filled (hresolved q hq) (hnonempty q hq)
  · exact map_mapM_congr fun q hq => map_shape_answer_filled (hresolved q hq) (hapart q hq)
  · exact (gives_drill h facts).outcome

/-- Rules that give the facts themselves, a sum of them and what reads that sum. -/
def receiptRules : Value := .map (.given 1) [
  ("all", .map (.given 2) [("var", .str "")]),
  ("sum", .map (.given 3) [("+", .list (.given 4) [.map (.given 5) [("var", .str "net")],
    .map (.given 6) [("var", .str "tax")]])]),
  ("due", .map (.given 7) [(">", .list (.given 8) [.map (.given 9) [("var", .str "sum")],
    .int 0])])]

/-- Facts of a receipt. -/
def receiptFacts : Value := .map (.given 12) [("net", .int 5), ("tax", .int 1)]

/-- A batch with facts, with empty facts and without facts. -/
def receiptEntries : List Value := [
  .list (.given 11) [.str "sum", receiptFacts],
  .list (.given 13) [.str "all", .map (.given 14) []],
  .list (.given 15) [.str "all"]]

/-- A batch with facts, with empty facts and without facts, a drill and a snapshot. -/
theorem batches_agree_of_receiptRules : ∃ e, ofRules receiptRules .standard = .ok e ∧
    FactsOrNone e.facts ∧ Apart e.rules (.given 14) ∧
    (e.runSeveral (.list (.given 10) receiptEntries)).outcome =
      (.ok [.int 6, .ofEntries [], .ofEntries []], []) ∧
    (e.drill (.str "sum") receiptFacts .backward).outcome.1 = .ok [.int 6, .bool false] ∧
    (e.after [.useFacts receiptFacts, .runSeveral .null]).facts = receiptFacts := by
  obtain ⟨e, he⟩ : ∃ e, ofRules receiptRules .standard = .ok e := ⟨_, rfl⟩
  have hrules : e.rules = receiptRules := by
    obtain rfl := Except.ok.inj he
    rfl
  have hsnapshot : FactsOrNone e.facts := by
    obtain rfl := Except.ok.inj he
    exact .none
  have hapart : Apart e.rules (.given 14) := by
    have hparts : [receiptRules, .list (.given 10) receiptEntries].Sublist
        ((Value.ofList [receiptRules, .ofList receiptEntries]).numbered .given 0).1.children :=
      .refl _
    have hlies : Rules.LiesAt (.list (.given 10) receiptEntries) ["1", "1"]
        (.map (.given 14) []) := .item (n := 1) rfl rfl (.item (n := 1) rfl rfl (.here _))
    exact hrules ▸ .of_numbered hparts hlies
  have hentries : List.Forall₂ Asks receiptEntries [(.str "sum", receiptFacts),
      (.str "all", .map (.given 14) []), (.str "all", .null)] :=
    .cons .facts (.cons .facts (.cons .path .nil))
  have hfacts : ∀ q ∈ [((.str "sum", receiptFacts) : Value × Value),
      (.str "all", .map (.given 14) []), (.str "all", .null)], FactsOrNone q.2 := by
    simp only [List.forall_mem_cons]
    exact ⟨.map _ _, .map _ _, .none, nofun⟩
  obtain ⟨hbatch, -, -, hdrill, hafter⟩ := batches_agree e (.given 10) hentries hsnapshot hfacts
  refine ⟨e, he, hsnapshot, hapart, hbatch.trans ?_, (hdrill _ _ _ [.str "due"] ?_).trans ?_, ?_⟩
  · obtain rfl := Except.ok.inj he
    rfl
  · obtain rfl := Except.ok.inj he
    rfl
  · obtain rfl := Except.ok.inj he
    rfl
  · rw [hafter]
    rfl

/-- A rule that compares the facts with a container of its own, which is empty. -/
def sharedRules : Value := .map (.given 1) [
  ("r", .map (.given 2) [("===", .list (.given 3) [.map (.given 4) [("var", .str "")],
    .map (.given 5) []])])]

/-- On facts that are this very container a run finds the two the same, and a batch does not. A
run without facts reports that they are missing, and a batch does not. -/
theorem not_batches_agree_of_sharedEmpty : ∃ e, ofRules sharedRules .standard = .ok e ∧
    (e.run (.str "r") (.map (.given 5) [])).outcome.1 = .ok (.bool true) ∧
    (e.runSeveral (.list (.given 6) [.list (.given 7) [.str "r", .map (.given 5) []]])).outcome.1 =
      .ok [.bool false] ∧
    (e.run (.str "r") .null).outcome.2 ≠ [] ∧
    (e.runSeveral (.list (.given 6) [.list (.given 7) [.str "r"]])).outcome.2 = [] :=
  ⟨_, rfl, rfl, rfl, nofun, rfl⟩

end Engine

end RuleTree
