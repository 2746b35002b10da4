import RuleTree.Proofs.Expr.Applied
import RuleTree.Proofs.Expr.Noninterference
import RuleTree.Proofs.Expr.Traced
/-!
# Paths that are looked up

What an evaluation looks up is written in the expression : if no path is computed, it is the
written form of a literal that a fact is asked for by (`Expr.noted_eval`). The scan of the
expression finds the texts among these literals (`Expr.scan_of_asksBy`). So it finds each path
that is looked up, apart from those that stand there as a number, a truth value or null
(`scan_of_lookUps`). The outcome depends on the facts at the paths that are looked up and on no
others (`lookUps_spec`).
-/

namespace RuleTree

namespace Expr

open Traced

/-! ## Literals as paths -/

mutual

/-- The literals that facts are asked for by. For a path that is itself computed they are those of
the computation. -/
def pathLiterals : Expr → List Value
  | literal _ => []
  | array items => pathLiteralsOfAll items
  | apply .fact operands => pathLiteralsOfFact operands
  | apply _ operands => pathLiteralsOfAll operands
  termination_by structural e => e

/-- The literals that facts are asked for by in any of the expressions. -/
def pathLiteralsOfAll : List Expr → List Value
  | [] => []
  | e :: es => pathLiterals e ++ pathLiteralsOfAll es
  termination_by structural es => es

/-- The literal that a fact is asked for by. -/
def pathLiteralsOfFact : List Expr → List Value
  | [] => []
  | literal v :: _ => [v]
  | e :: _ => pathLiterals e
  termination_by structural es => es

end

variable {test : Value → Bool} {op : Operator} {es : List Expr} {p : String}

theorem pathLiteralsOfAll_eq : ∀ es : List Expr, pathLiteralsOfAll es = es.flatMap pathLiterals
  | [] => rfl
  | e :: es => by rw [pathLiteralsOfAll, pathLiteralsOfAll_eq es, List.flatMap_cons]

theorem pathLiterals_apply (h : op ≠ .fact) (operands : List Expr) :
    (apply op operands).pathLiterals = pathLiteralsOfAll operands := by
  cases op <;> first | rfl | exact absurd rfl h

/-- The literals that facts are asked for by pass the test. -/
theorem test_of_mem_pathLiterals (e : Expr) (h : e.asksBy test = true) :
    ∀ v ∈ e.pathLiterals, test v = true := by
  have hall : ∀ {es : List Expr}, asksByAll test es = true →
      (∀ e ∈ es, e.asksBy test = true → ∀ v ∈ e.pathLiterals, test v = true) →
        ∀ v ∈ pathLiteralsOfAll es, test v = true := by
    intro es hes ih v hv
    rw [pathLiteralsOfAll_eq] at hv
    obtain ⟨e, he, hv⟩ := List.mem_flatMap.mp hv
    exact ih e he (asksByAll_iff.mp hes e he) v hv
  induction e using Expr.induction with
  | literal v => exact fun v hv => absurd hv List.not_mem_nil
  | array items ih => exact hall h ih
  | apply op operands ih =>
    by_cases hop : op = .fact
    · subst hop
      obtain ⟨v, rest, rfl, hv⟩ := exists_literal_of_asksByFirst h
      exact List.forall_mem_singleton.mpr hv
    · rw [asksBy_apply hop] at h
      rw [pathLiterals_apply hop]
      exact hall h ih

/-- A scan finds the texts among the literals that facts are asked for by. -/
theorem scan_of_asksBy (e : Expr) (h : e.asksBy test = true) :
    e.scan = ⟨(e.pathLiterals.filter Value.isText).map Value.written, none⟩ := by
  have hall : ∀ {es : List Expr}, asksByAll test es = true →
      (∀ e ∈ es, e.asksBy test = true →
        e.scan = ⟨(e.pathLiterals.filter Value.isText).map Value.written, none⟩) →
      scanAll es = ⟨((pathLiteralsOfAll es).filter Value.isText).map Value.written, none⟩ := by
    intro es hes ih
    have hscan := fun e he => ih e he (asksByAll_iff.mp hes e he)
    rw [scanAll_of_forall fun e he => congrArg Scan.error (hscan e he), pathLiteralsOfAll_eq,
      List.filter_flatMap, List.map_flatMap]
    exact congrArg (Scan.mk · none)
      (List.flatMap_congr fun e he => congrArg Scan.paths (hscan e he))
  induction e using Expr.induction with
  | literal v => rfl
  | array items ih => exact hall h ih
  | apply op operands ih =>
    by_cases hop : op = .fact
    · subst hop
      obtain ⟨v, rest, rfl, -⟩ := exists_literal_of_asksByFirst h
      cases v <;> rfl
    · rw [asksBy_apply hop] at h
      rw [pathLiterals_apply hop, scan_apply hop]
      exact hall h ih

/-! ## Evaluation -/

/-- Paths that an evaluation may look up : the written forms of the literals that facts are asked
for by, and any path if a fact is asked for otherwise. -/
def MayLookUp (test : Value → Bool) (e : Expr) (p : String) : Prop :=
  (∃ v ∈ e.pathLiterals, v.written = p) ∨ e.asksBy test = false

/-- What an operand may look up is written as a literal, or asks for a path that is none. -/
theorem MayLookUp.of_mem {e : Expr} (he : e ∈ es) (h : e.MayLookUp test p) :
    (∃ v ∈ pathLiteralsOfAll es, v.written = p) ∨ asksByAll test es = false := by
  rcases h with ⟨v, hv, hp⟩ | hasks
  · rw [pathLiteralsOfAll_eq]
    exact Or.inl ⟨v, List.mem_flatMap.mpr ⟨e, he, hv⟩, hp⟩
  · refine Or.inr (Bool.eq_false_iff.mpr fun hall => ?_)
    exact Bool.false_ne_true (hasks.symm.trans (asksByAll_iff.mp hall e he))

/-- An evaluation looks up no other paths, and it depends on the facts at those alone. -/
theorem noted_eval (test : Value → Bool) (limit : Int) (e : Expr) :
    Noted (e.MayLookUp test) limit e := by
  induction e using Expr.induction with
  | literal v => exact fun facts facts' depth => (Notes.silent _).bind fun _ => .pure _
  | array items ih =>
    intro facts facts' depth
    have hitems : ∀ e ∈ items, Noted ((array items).MayLookUp test) limit e :=
      fun e he facts facts' depth => (ih e he facts facts' depth).mono fun p hp => hp.of_mem he
    exact (Notes.silent _).bind fun _ => (notes_evalAll facts facts' (depth + 1) hitems).bind
      fun _ => (Notes.silent _).bind fun _ => .pure _
  | apply op operands ih =>
    by_cases hop : op = .fact
    · subst hop
      intro facts facts' depth
      refine (Notes.silent _).bind fun _ => notes_evalFact facts facts' (depth + 1)
        (fun v rest hv => ?_) fun e rest he hcomputed => ?_
      · subst hv
        exact Or.inl ⟨v, List.mem_singleton_self v, rfl⟩
      · subst he
        have hasks : (apply .fact (e :: rest)).asksBy test = false := by
          cases e with
          | literal v => exact absurd rfl (hcomputed v)
          | _ => rfl
        have hall : ∀ p, (apply .fact (e :: rest)).MayLookUp test p := fun p => Or.inr hasks
        exact ⟨fun facts facts' depth => (ih e (by simp) facts facts' depth).mono
          fun p _ => hall p, hall⟩
    · refine noted_apply hop fun e he facts facts' depth =>
        (ih e he facts facts' depth).mono fun p hp => ?_
      rw [MayLookUp, pathLiterals_apply hop, asksBy_apply hop]
      exact hp.of_mem he

end Expr

/-- Evaluate a value read as an expression, and list the paths that are looked up. -/
def lookUps (logic facts : Value) (limit : Int) : Except EvalError Value × List String :=
  ((Expr.ofValue logic).trace limit facts.orEmpty 0).outcome

theorem Value.orEmpty_of_isMap {v : Value} (h : v.isMap = true) : v.orEmpty = v := by
  obtain ⟨id, entries, rfl⟩ := exists_map_of_isMap h
  rfl

variable {logic : Value}

/-- The outcome is that of the evaluation, and what it depends on is listed beside it. -/
theorem lookUps_spec (test : Value → Bool) (logic facts facts' : Value) (limit : Int) :
    (lookUps logic facts limit).1 = evaluate logic facts limit ∧
      (∀ p ∈ (lookUps logic facts limit).2, (Expr.ofValue logic).MayLookUp test p) ∧
      (Value.Agree (lookUps logic facts limit).2 facts.orEmpty facts'.orEmpty →
        lookUps logic facts' limit = lookUps logic facts limit) := by
  have hlookUps : ∀ {facts result noted},
      ((Expr.ofValue logic).trace limit facts.orEmpty 0 1).run.run [] = (result, noted) →
        lookUps logic facts limit = (result.map Prod.fst, noted) :=
    fun hrun => congrArg (Prod.map (Except.map Prod.fst) id) hrun
  obtain ⟨noted, hnoted, hrun, hagree⟩ :=
    Expr.noted_eval test limit (Expr.ofValue logic) facts.orEmpty facts'.orEmpty 0 1 []
  rw [hlookUps hrun]
  exact ⟨rfl, hnoted, fun hfacts => hlookUps (hagree hfacts)⟩

/-- If facts are asked for by scalars, then the scan of an expression ends and finds the texts
among them. An evaluation depends on the facts that it looks up, and looks up the written forms of
the scalars : those that the scan finds, and those of numbers, truth values and null, which it
passes over. -/
theorem scan_of_lookUps (h : (Expr.ofValue logic).asksBy Value.isScalar = true) (facts : Value)
    (limit : Int) :
    (Expr.ofValue logic).scan =
        ⟨((Expr.ofValue logic).pathLiterals.filter Value.isText).map Value.written, none⟩ ∧
      (lookUps logic facts limit).1 = evaluate logic facts limit ∧
      (∀ facts', Value.Agree (lookUps logic facts limit).2 facts facts' →
        lookUps logic facts' limit = lookUps logic facts limit) ∧
      ∀ p ∈ (lookUps logic facts limit).2, p ∈ (Expr.ofValue logic).scan.paths ∨
        ∃ v ∈ (Expr.ofValue logic).pathLiterals,
          v.isScalar = true ∧ v.isText = false ∧ v.written = p := by
  have hscan := Expr.scan_of_asksBy (Expr.ofValue logic) h
  obtain ⟨houtcome, hpaths, -⟩ := lookUps_spec Value.isScalar logic facts facts limit
  refine ⟨hscan, houtcome, fun facts' hfacts => ?_, fun p hp => ?_⟩
  · obtain ⟨-, -, hagree⟩ := lookUps_spec Value.isScalar logic facts facts' limit
    rw [Value.orEmpty_of_isMap hfacts.left, Value.orEmpty_of_isMap hfacts.right] at hagree
    exact hagree hfacts
  · obtain ⟨v, hv, rfl⟩ := (hpaths p hp).resolve_right (by simp [h])
    by_cases htext : v.isText = true
    · rw [hscan]
      exact Or.inl (List.mem_map_of_mem (List.mem_filter.mpr ⟨hv, htext⟩))
    · exact Or.inr ⟨v, hv, Expr.test_of_mem_pathLiterals _ h v hv,
        Bool.eq_false_iff.mpr htext, rfl⟩

/-- Whether some item is in stock and the fact at the path of a number is true. -/
def stockedItem : Value := .applied .someItem [.applied .fact [.str "items"],
  .applied .allOf [.applied .fact [.str "$.stock"], .applied .fact [.int 2]]]

/-- Two items, and a fact whose name is a number. -/
def shopFacts : Value := .ofEntries [("items", .ofList [.ofEntries [("stock", .int 0)],
  .ofEntries [("stock", .int 4)]]), ("2", .bool true)]

/-- A path made of a number is looked up, although the scan does not report it. -/
theorem scan_of_stockedItem : (Expr.ofValue stockedItem).asksBy Value.isScalar = true ∧
    (Expr.ofValue stockedItem).scan = ⟨["items", "$.stock"], none⟩ ∧
    lookUps stockedItem shopFacts 256 = (.ok (.bool true), ["items", "$.stock", "$.stock", "2"]) ∧
    ∀ p ∈ (lookUps stockedItem shopFacts 256).2, p ∈ ["items", "$.stock"] ∨
      ∃ v ∈ [Value.str "items", .str "$.stock", .int 2],
        v.isScalar = true ∧ v.isText = false ∧ v.written = p := by
  have hasks : (Expr.ofValue stockedItem).asksBy Value.isScalar = true := rfl
  obtain ⟨hscan, -, -, hlookUps⟩ := scan_of_lookUps hasks shopFacts 256
  exact ⟨hasks, hscan, rfl, hlookUps⟩

/-- A fact whose path is a number is looked up, and the scan passes it over. -/
theorem scan_of_number : (Expr.ofValue (.applied .fact [.int 1])).asksBy Value.isScalar = true ∧
    (Expr.ofValue (.applied .fact [.int 1])).scan = ⟨[], none⟩ ∧
    lookUps (.applied .fact [.int 1]) (.ofEntries [("1", .int 7)]) 256 = (.ok (.int 7), ["1"]) ∧
    ¬ ∀ p ∈ (lookUps (.applied .fact [.int 1]) (.ofEntries [("1", .int 7)]) 256).2,
      p ∈ (Expr.ofValue (.applied .fact [.int 1])).scan.paths := by
  have hlookUps : lookUps (.applied .fact [.int 1]) (.ofEntries [("1", .int 7)]) 256 =
      (.ok (.int 7), ["1"]) := rfl
  refine ⟨rfl, rfl, hlookUps, fun h => ?_⟩
  rw [hlookUps] at h
  exact absurd (h "1" (List.mem_singleton_self _)) List.not_mem_nil

end RuleTree
