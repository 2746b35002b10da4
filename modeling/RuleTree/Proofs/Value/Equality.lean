import RuleTree.Value.Equality
import RuleTree.Proofs.Number.Range
/-!
# Laws of strict equality

Strict equality compares one thing of each value, its mark : the place of a number, the identity
of a container, a text or a truth value as it is. Two values are equal exactly if they have a mark
in common (`Value.strictEquals_iff`), and a value has one unless it is NaN (`Value.mark?_eq_none`).
So equality is a partial equivalence. Whether a value counts as true depends on its mark alone
(`Value.isTruthy_of_mark?`), hence equal values count as true together (`Value.strictEquals_laws`).
-/

namespace RuleTree

/-! ## Places of numbers -/

namespace Double

theorem signedSteps_eq_zero {negative : Bool} {steps : Nat} :
    signedSteps negative steps = 0 ↔ steps = 0 := by
  cases negative <;> simp [signedSteps]

theorem isZero_finite (negative : Bool) (steps : Nat) :
    (finite negative steps).isZero = decide (steps = 0) := by
  cases steps <;> rfl

end Double

namespace Number

/-- Equal numbers lie at the same place, whatever their types. -/
theorem equal_iff {x y : Number} :
    x.equal y = true ↔ ∃ place, x.place? = some place ∧ y.place? = some place := by
  unfold equal
  cases x.place? <;> cases y.place? <;> simp [eq_comm]

/-- NaN alone has no place among the numbers. -/
theorem place?_eq_none {x : Number} : x.place? = none ↔ x = .nan := by
  constructor
  · intro h
    match x, h with
    | .double .nan, _ => rfl
    | .double (.infinity true), h | .double (.infinity false), h => cases h
  · rintro rfl
    rfl

end Number

namespace Value

/-! ## Marks -/

/-- What strict equality compares of a value. -/
inductive Mark where
  | null
  | bool (b : Bool)
  | number (place : Double.Place)
  | text (s : String)
  | list (id : Ident)
  | map (id : Ident)
  deriving DecidableEq

/-- Whether the values with a mark count as true. -/
def Mark.isTruthy : Mark → Bool
  | null => false
  | bool b => b
  | number place => decide (place ≠ .count 0)
  | text s => decide (s ≠ "")
  | list _ => true
  | map _ => true

/-- The mark of a value; a number without a place has none. -/
def mark? : Value → Option Mark
  | null => some .null
  | bool b => some (.bool b)
  | num n => n.place?.map .number
  | str s => some (.text s)
  | list id _ => some (.list id)
  | map id _ => some (.map id)

variable {a b c : Value}

/-- Two values are equal exactly if they have a mark in common. -/
theorem strictEquals_iff :
    a.strictEquals b = true ↔ ∃ mark, a.mark? = some mark ∧ b.mark? = some mark := by
  cases a with
  | num x =>
    cases b with
    | num y => simp [strictEquals, mark?, Number.equal_iff]
    | _ => simp [strictEquals, mark?]
  | _ => cases b <;> simp [strictEquals, mark?, eq_comm]

theorem mark?_eq_none : a.mark? = none ↔ a = .num .nan := by
  cases a <;> simp [mark?, Number.place?_eq_none]

/-- A number counts as true unless it lies at zero. -/
theorem isTruthy_num {n : Number} {place : Double.Place} (h : n.place? = some place) :
    (num n).isTruthy = decide (place ≠ .count 0) := by
  match n, h with
  | .int n, h =>
    obtain rfl := Option.some.inj h
    have hsteps : (Double.stepsPerOne : Int) ≠ 0 :=
      Int.natCast_ne_zero.mpr Double.stepsPerOne_pos.ne'
    simp only [isTruthy, ne_eq, Double.Place.count.injEq, mul_eq_zero, hsteps, or_false]
  | .double (.infinity true), h | .double (.infinity false), h =>
    obtain rfl := Option.some.inj h
    rfl
  | .double (.finite negative steps), h =>
    obtain rfl := Option.some.inj h
    simp [isTruthy, Double.isZero_finite, Double.signedSteps_eq_zero]

/-- Whether a value counts as true depends on its mark alone. -/
theorem isTruthy_of_mark? {mark : Mark} (h : a.mark? = some mark) : a.isTruthy = mark.isTruthy := by
  cases a with
  | num n =>
    obtain ⟨place, hplace, rfl⟩ := Option.map_eq_some_iff.mp h
    exact isTruthy_num hplace
  | _ =>
    obtain rfl := Option.some.inj h
    rfl

/-! ## Equal values -/

theorem strictEquals_comm (a b : Value) : a.strictEquals b = b.strictEquals a := by
  rw [Bool.eq_iff_iff, strictEquals_iff, strictEquals_iff]
  exact exists_congr fun mark => and_comm

theorem mark?_eq_of_strictEquals (h : a.strictEquals b = true) : a.mark? = b.mark? := by
  obtain ⟨mark, ha, hb⟩ := strictEquals_iff.mp h
  rw [ha, hb]

/-- Nothing tells a value from one that is equal to it. -/
theorem strictEquals_congr (h : a.strictEquals b = true) (c : Value) :
    c.strictEquals a = c.strictEquals b := by
  rw [Bool.eq_iff_iff, strictEquals_iff, strictEquals_iff, mark?_eq_of_strictEquals h]

theorem strictEquals_self_iff : a.strictEquals a = true ↔ a ≠ .num .nan := by
  have hmark : a.mark? ≠ none ↔ a ≠ .num .nan := not_congr mark?_eq_none
  rw [strictEquals_iff, ← hmark, Option.ne_none_iff_exists']
  exact exists_congr fun mark => and_self_iff

/-- Strict equality is symmetric and transitive, and only NaN is not equal to itself. Equal values
count as true together and are equal to the same values. -/
theorem strictEquals_laws (a b c : Value) :
    a.strictEquals b = b.strictEquals a ∧
    (a.strictEquals b = true → b.strictEquals c = true → a.strictEquals c = true) ∧
    (a.strictEquals a = true ↔ a ≠ .num .nan) ∧
    (a.strictEquals b = true →
      a.isTruthy = b.isTruthy ∧ c.strictEquals a = c.strictEquals b) := by
  refine ⟨strictEquals_comm a b, fun hab hbc => ?_, strictEquals_self_iff, fun hab => ⟨?_, ?_⟩⟩
  · rwa [← strictEquals_congr hbc a]
  · obtain ⟨mark, ha, hb⟩ := strictEquals_iff.mp hab
    rw [isTruthy_of_mark? ha, isTruthy_of_mark? hb]
  · exact strictEquals_congr hab c

/-- The integer zero equals both doubles at its place, so these are equal and false like it. -/
theorem strictEquals_laws_of_zeros :
    (num (.double .zero)).strictEquals (int 0) = true ∧
    (int 0).strictEquals (num (.double (.finite true 0))) = true ∧
    (num (.double .zero)).strictEquals (num (.double (.finite true 0))) = true ∧
    (num (.double .zero)).isTruthy = (int 0).isTruthy := by
  obtain ⟨-, htrans, -, hcongr⟩ :=
    strictEquals_laws (num (.double .zero)) (int 0) (num (.double (.finite true 0)))
  have hpositive : (num (.double .zero)).strictEquals (int 0) = true := by decide +kernel
  have hnegative : (int 0).strictEquals (num (.double (.finite true 0))) = true := by
    decide +kernel
  exact ⟨hpositive, hnegative, htrans hpositive hnegative, (hcongr hpositive).1⟩

end Value

end RuleTree
