import RuleTree.Path.Read
import RuleTree.Proofs.Expr.Noninterference
/-!
# Facts and values at a path

A fact is looked up and a value is read along the same children. The look-up of a fact stops at
the first value that does not count as true, where a strict reading goes on and finds nothing
(`Value.factAt_eq_read_or`). So the two agree wherever the reading finds a value or the fact counts
as true, and they fail together (`evaluate_askFor_read`).
-/

namespace RuleTree

open RuleTree.Path

namespace Value

variable {segment : String} {rest : Path}

/-- A strict reading goes on in the child, and there is none below a scalar. -/
theorem read_cons_strict (hs : segment ≠ wildcard) (v : Value) :
    v.read (segment :: rest) true = (do
      match ← v.child? segment with
      | some inner => inner.read rest true
      | none => return .null) := by
  cases hv : v.isScalar with
  | false =>
    rw [read_cons hv hs]
    cases v.child? segment with
    | error e => rfl
    | ok child => cases child <;> rfl
  | true =>
    have hchild : v.child? segment = .ok none := by
      cases v with
      | list | map => cases hv
      | _ => rfl
    rw [read_scalar_cons hv, if_neg (by simp [hs]), hchild]
    rfl

theorem factAt_cons (hs : segment ≠ "") (v : Value) :
    factAt (segment :: rest) v = (do
      let found := (← v.child? segment).getD .null
      if found.isTruthy then factAt rest found else return found) := by
  rw [factAt, if_neg hs]

/-- Only lists and maps have children, and they count as true. -/
theorem child?_of_not_truthy {v : Value} (h : v.isTruthy = false) (segment : String) :
    v.child? segment = .ok none := by
  cases v with
  | list | map => cases h
  | _ => rfl

/-- Some of the segments but not all lead to a value that does not count as true. -/
structure StopsAt (v : Value) (path : Path) (found : Value) : Prop where
  falsy : found.isTruthy = false
  before_end : ∃ front, front ≠ [] ∧ front <+: path ∧ front ≠ path ∧ v.read front true = .ok found

/-- A look-up that stops behind a child stops behind the segment to it. -/
theorem StopsAt.cons {v inner found : Value} (hs : segment ≠ wildcard)
    (hchild : v.child? segment = .ok (some inner)) (h : StopsAt inner rest found) :
    StopsAt v (segment :: rest) found := by
  obtain ⟨front, -, hprefix, hshort, hread⟩ := h.before_end
  refine ⟨h.falsy, segment :: front, List.cons_ne_nil _ _, (List.prefix_cons_inj _).mpr hprefix,
    fun heq => hshort (List.cons.inj heq).2, ?_⟩
  rw [read_cons_strict hs, hchild]
  exact hread

/-- The fact at a path is what a strict reading gives, unless the look-up stops before the end of
the path, where the reading finds nothing. -/
theorem factAt_eq_read_or : ∀ {path : Path} {v : Value}, (∀ s ∈ path, s ≠ "" ∧ s ≠ wildcard) →
    factAt path v = v.read path true ∨
      ∃ found, StopsAt v path found ∧ factAt path v = .ok found ∧ v.read path true = .ok .null
  | [], _, _ => Or.inl rfl
  | segment :: rest, v, h => by
    obtain ⟨⟨hempty, hs⟩, hrest⟩ := List.forall_mem_cons.mp h
    rw [factAt_cons hempty, read_cons_strict hs]
    cases hchild : v.child? segment with
    | error e => exact Or.inl rfl
    | ok child =>
      cases child with
      | none => exact Or.inl rfl
      | some inner =>
        simp only [bind, Except.bind, Option.getD_some]
        by_cases ht : inner.isTruthy = true
        · rw [if_pos ht]
          rcases factAt_eq_read_or (v := inner) hrest with hsame | ⟨found, hstop, hfact, hread⟩
          · exact Or.inl hsame
          · exact Or.inr ⟨found, hstop.cons hs hchild, hfact, hread⟩
        · rw [if_neg ht]
          have hfalsy : inner.isTruthy = false := by simpa using ht
          cases rest with
          | nil => exact Or.inl rfl
          | cons next rest =>
            have hfound : v.read [segment] true = .ok inner := by
              rw [read_cons_strict hs, hchild]
              rfl
            refine Or.inr ⟨inner, ⟨hfalsy, [segment], by simp, by simp, by simp, hfound⟩, rfl, ?_⟩
            rw [read_cons_strict (hrest next (by simp)).2, child?_of_not_truthy hfalsy]
            rfl

end Value

/-- The fact at a written path without empty segments and wildcards fails if and only if the strict
reading does. If the reading finds a value, it is the fact, and a fact that counts as true is what
the reading finds. Otherwise the look-up has stopped early, and the reading gives null. -/
theorem evaluate_askFor_read {p : String} (hp : ∀ s ∈ ofText p, s ≠ "" ∧ s ≠ wildcard)
    (id : Ident) (entries : List (String × Value)) {limit : Int} (hlimit : 0 ≤ limit) :
    ((∃ err, evaluate (askFor p) (.map id entries) limit = .error err) ↔
      ∃ err, (Value.map id entries).read (ofText p) true = .error err) ∧
    ∀ v w, evaluate (askFor p) (.map id entries) limit = .ok v →
      (Value.map id entries).read (ofText p) true = .ok w →
        (w ≠ .null → v = w) ∧ (v.isTruthy = true → w = v) ∧
        (v ≠ w → w = .null ∧ Value.StopsAt (.map id entries) (ofText p) v) := by
  have hok : ∀ {ε : Type} {v : Value}, ¬ ∃ err : ε, Except.ok v = .error err := by
    rintro ε v ⟨err, h⟩
    cases h
  rw [evaluate_askFor p id entries hlimit]
  rcases Value.factAt_eq_read_or (v := .map id entries) hp with hsame | ⟨found, hstop, hfact, hread⟩
  · rw [hsame]
    cases (Value.map id entries).read (ofText p) true with
    | error e => exact ⟨iff_of_true ⟨_, rfl⟩ ⟨e, rfl⟩, fun v w hv => by cases hv⟩
    | ok found =>
      refine ⟨iff_of_false hok hok, fun v w hv hw => ?_⟩
      obtain rfl : found = v := Except.ok.inj hv
      obtain rfl : found = w := Except.ok.inj hw
      exact ⟨fun _ => rfl, fun _ => rfl, fun hne => absurd rfl hne⟩
  · rw [hfact, hread]
    refine ⟨iff_of_false hok hok, fun v w hv hw => ?_⟩
    obtain rfl : found = v := Except.ok.inj hv
    obtain rfl : Value.null = w := Except.ok.inj hw
    refine ⟨fun hne => absurd rfl hne, fun htrue => ?_, fun _ => ⟨rfl, hstop⟩⟩
    exact absurd htrue (by simp [hstop.falsy])

/-- Facts about an account with an empty balance. -/
def accountFacts : List (String × Value) := [("account", .map (.given 1) [("balance", .int 0)])]

/-- The look-up of an amount below the balance stops there. -/
theorem evaluate_askFor_read_of_accountFacts :
    evaluate (askFor "account.balance.amount") (.map (.given 0) accountFacts) 256 =
      .ok (.int 0) ∧
    (Value.map (.given 0) accountFacts).read (ofText "account.balance.amount") true =
      .ok .null ∧
    Value.StopsAt (.map (.given 0) accountFacts) (ofText "account.balance.amount") (.int 0) := by
  have hfact : evaluate (askFor "account.balance.amount") (.map (.given 0) accountFacts) 256 =
      .ok (.int 0) := rfl
  have hread : (Value.map (.given 0) accountFacts).read (ofText "account.balance.amount") true =
      .ok .null := rfl
  obtain ⟨-, -, hstop⟩ := (evaluate_askFor_read (p := "account.balance.amount") (by decide)
    (.given 0) accountFacts (show (0 : Int) ≤ 256 by decide)).2 _ _ hfact hread
  exact ⟨hfact, hread, (hstop (by simp [Value.int])).2⟩

end RuleTree
