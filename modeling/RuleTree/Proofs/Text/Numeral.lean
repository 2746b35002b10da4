import RuleTree.Value.Coerce
import Mathlib.Data.List.TakeWhile
/-!
# Numerals

`Text.Numeral` is the grammar of the texts that count as numbers, each with the double that it
writes : a sign that may be missing, and the word for an infinity or decimal digits with a point
and an exponent that may be missing (`Text.Writes`). The parts of a numeral are taken off the
front of a text one after the other, so a text is read as a double exactly if it is a numeral
(`Text.readDouble?_eq_some_iff`).
-/

namespace RuleTree.Text

/-! ## Grammars -/

/-- A sign that may be missing; true means minus. -/
inductive Sign : List Char → Bool → Prop
  | none : Sign [] false
  | plus : Sign ['+'] false
  | minus : Sign ['-'] true

/-- Decimal digits of any script, at least one. -/
structure Digits (cs : List Char) : Prop where
  ne_nil : cs ≠ []
  all : ∀ c ∈ cs, isDecimal c = true

/-- A number with its sign. -/
def signed (negative : Bool) (n : Nat) : Int := if negative then -n else n

section

-- how digits are written, and how a double that is no decimal number
variable (Run : List Char → List Char → Prop) (Word : List Char → Bool → Double → Prop)

/-- Digits with a point behind, between or in front of them, or without one; with the digits on
both sides of it. -/
inductive Mantissa : List Char → List Char → List Char → Prop
  | whole {w whole : List Char} (h : Run w whole) : Mantissa w whole []
  | point {w whole : List Char} (h : Run w whole) : Mantissa (w ++ ['.']) whole []
  | both {w whole f fraction : List Char} (h : Run w whole) (hfraction : Run f fraction) :
    Mantissa (w ++ '.' :: f) whole fraction
  | fraction {f fraction : List Char} (h : Run f fraction) : Mantissa ('.' :: f) [] fraction

/-- An exponent that may be missing, with its value. -/
inductive Exponent : List Char → Int → Prop
  | none : Exponent [] 0
  | some {mark : Char} {sign w digits : List Char} {negative : Bool}
    (hmark : mark = 'e' ∨ mark = 'E') (hsign : Sign sign negative) (h : Run w digits) :
    Exponent (mark :: (sign ++ w)) (signed negative (digitsValue digits))

/-- A text that writes a double : a sign that may be missing, and a word or a decimal number. -/
inductive Writes : List Char → Double → Prop
  | word {sign w : List Char} {negative : Bool} {d : Double} (hsign : Sign sign negative)
    (hword : Word w negative d) : Writes (sign ++ w) d
  | decimal {sign body whole fraction tail : List Char} {negative : Bool} {exponent : Int}
    (hsign : Sign sign negative) (hbody : Mantissa Run body whole fraction)
    (htail : Exponent Run tail exponent) :
    Writes (sign ++ (body ++ tail))
      (.ofDecimal negative (digitsValue (whole ++ fraction)) (exponent - fraction.length))

end

/-- Nothing stands between the digits. -/
inductive Plain : List Char → List Char → Prop
  | digits {cs : List Char} (h : Digits cs) : Plain cs cs

/-- The word for an infinity. -/
inductive InfinityWord : List Char → Bool → Double → Prop
  | infinity (negative : Bool) : InfinityWord "Infinity".toList negative (.infinity negative)

/-- A text that counts as a number, with the double that it writes. -/
abbrev Numeral : List Char → Double → Prop := Writes Plain InfinityWord

/-! ## Reading -/

/-- A sign is read in front of what starts with no other. -/
theorem takeSign_append {sign rest : List Char} {negative : Bool} (h : Sign sign negative)
    (hrest : ∀ c ∈ rest.head?, c ≠ '+' ∧ c ≠ '-') : takeSign (sign ++ rest) = (negative, rest) := by
  cases h with
  | none =>
    rw [List.nil_append, takeSign.eq_def]
    split
    · exact absurd rfl (hrest '+' rfl).1
    · exact absurd rfl (hrest '-' rfl).2
    · rfl
  | plus => rfl
  | minus => rfl

/-- What is read as a sign is one. -/
theorem exists_of_takeSign {cs rest : List Char} {negative : Bool}
    (h : takeSign cs = (negative, rest)) : ∃ sign, Sign sign negative ∧ cs = sign ++ rest := by
  rw [takeSign.eq_def] at h
  split at h <;> obtain ⟨rfl, rfl⟩ := Prod.ext_iff.mp h
  · exact ⟨_, .plus, rfl⟩
  · exact ⟨_, .minus, rfl⟩
  · exact ⟨_, .none, rfl⟩

/-- The decimal digits at the front are all those up to the first other character. -/
theorem takeDecimals_eq_iff {cs digits rest : List Char} : takeDecimals cs = (digits, rest) ↔
    cs = digits ++ rest ∧ (∀ c ∈ digits, isDecimal c = true) ∧
      ∀ c ∈ rest.head?, isDecimal c = false := by
  constructor
  · intro h
    obtain ⟨rfl, rfl⟩ := Prod.ext_iff.mp h
    refine ⟨(List.takeWhile_append_dropWhile ..).symm, fun c hc => List.mem_takeWhile_imp hc,
      fun c hc => ?_⟩
    have hnot := List.head?_dropWhile_not isDecimal cs
    have hhead : (cs.dropWhile isDecimal).head? = some c := hc
    rwa [hhead] at hnot
  · rintro ⟨rfl, hdigits, hrest⟩
    have hnone : rest.takeWhile isDecimal = [] ∧ rest.dropWhile isDecimal = rest := by
      cases rest with
      | nil => exact ⟨rfl, rfl⟩
      | cons c rest => simp [hrest c rfl]
    rw [takeDecimals, List.takeWhile_append_of_pos hdigits, List.dropWhile_append_of_pos hdigits,
      hnone.1, hnone.2, List.append_nil]

/-- A mantissa is read up to where no digit and no point follows, with its digits in front of the
point and behind it. -/
theorem takeMantissa?_append {body whole fraction rest : List Char}
    (h : Mantissa Plain body whole fraction)
    (hrest : ∀ c ∈ rest.head?, isDecimal c = false ∧ c ≠ '.') :
    takeMantissa? (body ++ rest) = some (whole, fraction, rest) := by
  have hdecimal : ∀ c ∈ rest.head?, isDecimal c = false := fun c hc => (hrest c hc).1
  have hpoint : ∀ cs, ∀ c ∈ ('.' :: cs).head?, isDecimal c = false := by
    intro cs c hc
    obtain rfl := Option.some.inj hc
    decide
  -- digits in front of a point, and behind it
  have hpointed : ∀ {whole fraction}, Digits whole → (∀ c ∈ fraction, isDecimal c = true) →
      takeMantissa? (whole ++ '.' :: (fraction ++ rest)) = some (whole, fraction, rest) := by
    intro whole fraction h hfraction
    have hfront := takeDecimals_eq_iff.mpr ⟨rfl, h.all, hpoint (fraction ++ rest)⟩
    have hbehind := takeDecimals_eq_iff.mpr ⟨rfl, hfraction, hdecimal⟩
    obtain ⟨c, cs, rfl⟩ := List.exists_cons_of_ne_nil h.ne_nil
    rw [takeMantissa?, hfront]
    simp only [hbehind]
  cases h with
  | whole h =>
    obtain ⟨h⟩ := h
    have hfront := takeDecimals_eq_iff.mpr ⟨rfl, h.all, hdecimal⟩
    obtain ⟨c, cs, rfl⟩ := List.exists_cons_of_ne_nil h.ne_nil
    rw [takeMantissa?, hfront]
    cases rest with
    | nil => rfl
    | cons d ds =>
      have hd := (hrest d rfl).2
      simp [hd]
  | point h =>
    obtain ⟨h⟩ := h
    rw [List.append_assoc]
    exact hpointed h nofun
  | both h hfraction =>
    obtain ⟨h⟩ := h
    obtain ⟨hfraction⟩ := hfraction
    rw [List.append_assoc]
    exact hpointed h hfraction.all
  | fraction h =>
    obtain ⟨h⟩ := h
    have hfront := takeDecimals_eq_iff.mpr
      ⟨(List.nil_append _).symm, nofun, hpoint (fraction ++ rest)⟩
    have hbehind := takeDecimals_eq_iff.mpr ⟨rfl, h.all, hdecimal⟩
    obtain ⟨c, cs, rfl⟩ := List.exists_cons_of_ne_nil h.ne_nil
    rw [List.cons_append, takeMantissa?, hfront]
    simp only [hbehind]

/-- What is read as a mantissa is one, and nothing else is taken. -/
theorem exists_of_takeMantissa? {cs whole fraction rest : List Char}
    (h : takeMantissa? cs = some (whole, fraction, rest)) :
    ∃ body, Mantissa Plain body whole fraction ∧ cs = body ++ rest := by
  rw [takeMantissa?] at h
  split at h
  · next behind htake =>
    obtain ⟨rfl, -, -⟩ := takeDecimals_eq_iff.mp htake
    split at h
    · cases h
    · next digits rest' hne hbehind =>
      obtain ⟨rfl, hdigits, -⟩ := takeDecimals_eq_iff.mp hbehind
      cases h
      exact ⟨_, .fraction ⟨⟨hne, hdigits⟩⟩, rfl⟩
  · cases h
  · next digits behind hne htake =>
    obtain ⟨rfl, hdigits, -⟩ := takeDecimals_eq_iff.mp htake
    cases hbehind : takeDecimals behind with
    | mk fraction rest' =>
      obtain ⟨rfl, hfraction, -⟩ := takeDecimals_eq_iff.mp hbehind
      simp only [hbehind] at h
      cases h
      by_cases hnil : fraction = []
      · subst hnil
        exact ⟨_, .point ⟨⟨hne, hdigits⟩⟩, by rw [List.append_assoc]; rfl⟩
      · exact ⟨_, .both ⟨⟨hne, hdigits⟩⟩ ⟨⟨hnil, hfraction⟩⟩, by rw [List.append_assoc]; rfl⟩
  · next digits behind hne _ htake =>
    obtain ⟨rfl, hdigits, -⟩ := takeDecimals_eq_iff.mp htake
    cases h
    exact ⟨_, .whole ⟨⟨hne, hdigits⟩⟩, rfl⟩

/-- Digits start with a digit. -/
theorem Digits.head {digits : List Char} (h : Digits digits) (rest : List Char) :
    ∀ c ∈ (digits ++ rest).head?, isDecimal c = true := by
  obtain ⟨d, ds, rfl⟩ := List.exists_cons_of_ne_nil h.ne_nil
  intro c hc
  obtain rfl := Option.some.inj hc
  exact h.all d (by simp)

/-- A text is read as an exponent exactly if it is one, empty for the exponent zero. -/
theorem readExponent?_eq_some_iff {cs : List Char} {exponent : Int} :
    readExponent? cs = some exponent ↔ Exponent Plain cs exponent := by
  constructor
  · intro h
    cases cs with
    | nil =>
      obtain rfl := Option.some.inj h
      exact .none
    | cons mark cs =>
      rw [readExponent?] at h
      split at h
      · next hmark =>
        cases htake : takeSign cs with
        | mk negative digits =>
          obtain ⟨sign, hsign, rfl⟩ := exists_of_takeSign htake
          simp only [htake] at h
          split at h
          · cases h
          · next hdigits =>
            obtain rfl := Option.some.inj h
            simp only [Bool.or_eq_true, List.isEmpty_iff, Bool.not_eq_true', not_or,
              Bool.not_eq_false, List.all_eq_true] at hdigits
            exact .some (by simpa using hmark) hsign ⟨⟨hdigits.1, hdigits.2⟩⟩
      · cases h
  · intro h
    cases h with
    | none => rfl
    | @some mark sign digits _ negative hmark hsign h =>
      obtain ⟨h⟩ := h
      have hhead : ∀ c ∈ digits.head?, c ≠ '+' ∧ c ≠ '-' := by
        intro c hc
        have hdecimal := h.head [] c (by rwa [List.append_nil])
        constructor <;> rintro rfl <;> exact absurd hdecimal (by decide)
      have hnumber : ¬ (digits.isEmpty || !digits.all isDecimal) = true := by
        have hall : digits.all isDecimal = true := List.all_eq_true.mpr h.all
        simp [hall, h.ne_nil]
      rw [readExponent?, if_pos (by simpa using hmark), takeSign_append hsign hhead]
      simp only [if_neg hnumber]
      rfl

/-- An exponent that is written starts with its letter. -/
theorem Exponent.head {tail : List Char} {exponent : Int} (h : Exponent Plain tail exponent) :
    ∀ c ∈ tail.head?, c = 'e' ∨ c = 'E' := by
  cases h with
  | none => exact nofun
  | some hmark =>
    intro c hc
    obtain rfl := Option.some.inj hc
    exact hmark

/-- A mantissa starts with a digit or a point. -/
theorem Mantissa.head {body whole fraction : List Char} (h : Mantissa Plain body whole fraction)
    (rest : List Char) : ∀ c ∈ (body ++ rest).head?, isDecimal c = true ∨ c = '.' := by
  cases h with
  | whole h =>
    obtain ⟨h⟩ := h
    exact fun c hc => Or.inl (h.head rest c hc)
  | point h | both h =>
    obtain ⟨h⟩ := h
    rw [List.append_assoc]
    exact fun c hc => Or.inl (h.head _ c hc)
  | fraction h => exact fun c hc => Or.inr (Option.some.inj hc).symm

/-- A text is read as a decimal exactly if it is a mantissa with an exponent, whose digits and place
give the decimal. -/
theorem readDecimal?_eq_some_iff {cs : List Char} {d : Double.Decimal} :
    readDecimal? cs = some d ↔ ∃ body whole fraction tail exponent,
      Mantissa Plain body whole fraction ∧ Exponent Plain tail exponent ∧ cs = body ++ tail ∧
        d = ⟨digitsValue (whole ++ fraction), exponent - fraction.length⟩ := by
  constructor
  · intro h
    obtain ⟨⟨whole, fraction, tail⟩, htake, hrest⟩ := Option.bind_eq_some_iff.mp h
    obtain ⟨exponent, hexponent, hd⟩ := Option.bind_eq_some_iff.mp hrest
    obtain ⟨body, hbody, rfl⟩ := exists_of_takeMantissa? htake
    exact ⟨body, whole, fraction, tail, exponent, hbody, readExponent?_eq_some_iff.mp hexponent,
      rfl, (Option.some.inj hd).symm⟩
  · rintro ⟨body, whole, fraction, tail, exponent, hbody, htail, rfl, rfl⟩
    have hbehind : ∀ c ∈ tail.head?, isDecimal c = false ∧ c ≠ '.' := by
      intro c hc
      rcases htail.head c hc with rfl | rfl <;> decide
    rw [readDecimal?, takeMantissa?_append hbody hbehind]
    show (readExponent? tail).bind _ = _
    rw [readExponent?_eq_some_iff.mpr htail]
    rfl

/-- A text is read as a double exactly if it is a numeral that writes it. -/
theorem readDouble?_eq_some_iff {cs : List Char} {d : Double} :
    readDouble? cs = some d ↔ Numeral cs d := by
  constructor
  · intro h
    cases htake : takeSign cs with
    | mk negative rest =>
      obtain ⟨sign, hsign, rfl⟩ := exists_of_takeSign htake
      simp only [readDouble?, htake] at h
      split at h
      · next hrest =>
        obtain rfl := Option.some.inj h
        exact hrest ▸ .word hsign (.infinity negative)
      · obtain ⟨n, hn, rfl⟩ := Option.map_eq_some_iff.mp h
        obtain ⟨body, whole, fraction, tail, exponent, hbody, htail, rfl, rfl⟩ :=
          readDecimal?_eq_some_iff.mp hn
        exact .decimal hsign hbody htail
  · intro h
    cases h with
    | word hsign hword =>
      obtain ⟨negative⟩ := hword
      have hhead : ∀ c ∈ "Infinity".toList.head?, c ≠ '+' ∧ c ≠ '-' := by
        intro c hc
        obtain rfl : 'I' = c := Option.some.inj hc
        decide
      rw [readDouble?, takeSign_append hsign hhead]
      rfl
    | @decimal sign body whole fraction tail negative exponent hsign hbody htail =>
      have hhead : ∀ other : Char, isDecimal other = false ∧ other ≠ '.' →
          ∀ c ∈ (body ++ tail).head?, c ≠ other := by
        rintro other hother c hc rfl
        rcases hbody.head tail c hc with hdecimal | rfl
        · exact absurd (hother.1.symm.trans hdecimal) Bool.false_ne_true
        · exact hother.2 rfl
      have hword : body ++ tail ≠ "Infinity".toList := fun hword =>
        hhead 'I' (by decide) 'I' (by rw [hword]; rfl) rfl
      have hdecimal := readDecimal?_eq_some_iff.mpr
        ⟨body, whole, fraction, tail, exponent, hbody, htail, rfl, rfl⟩
      rw [readDouble?, takeSign_append hsign fun c hc =>
        ⟨hhead '+' (by decide) c hc, hhead '-' (by decide) c hc⟩]
      simp only [if_neg hword, hdecimal]
      rfl

end RuleTree.Text
