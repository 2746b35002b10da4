import RuleTree.Path.Basic
import RuleTree.Text.Digit
import Mathlib.Data.List.Basic
import Mathlib.Data.Nat.Digits.Defs
/-!
# Written paths

Joining segments without dots and splitting at the dots gives them back (`Path.ofText_text`).
Plain segments, which are not empty either, make the written form
injective (`Path.text_inj`), the empty path included. The written form of a position in
a list is plain (`Path.plain_toString`) and, within the limit on digits, is read as that
position (`Text.readIndex_toString`).
-/

namespace RuleTree

/-! ## Splitting and joining -/

namespace Text

theorem split_eq_splitOn (mark : Char) : ∀ cs : List Char, split mark cs = cs.splitOn mark
  | [] => by simp [split]
  | c :: cs => by
    obtain ⟨part, rest, h⟩ := List.exists_cons_of_ne_nil (List.splitOn_ne_nil mark cs)
    rw [split, split_eq_splitOn mark cs, List.splitOn_cons_eq_if_modifyHead, h]
    by_cases hc : c = mark <;> simp [hc]

/-- The parts of a split do not have the mark. -/
theorem not_mem_of_mem_split {mark : Char} :
    ∀ {cs part : List Char}, part ∈ split mark cs → mark ∉ part
  | [], part, h => by
    obtain rfl : part = [] := by simpa [split] using h
    simp
  | c :: cs, part, h => by
    obtain ⟨first, rest, hs⟩ := List.exists_cons_of_ne_nil (split_ne_nil mark cs)
    have ih : ∀ part ∈ first :: rest, mark ∉ part :=
      fun part hp => not_mem_of_mem_split (hs ▸ hp)
    rw [split, hs] at h
    by_cases hc : c = mark
    · rw [if_pos hc] at h
      rcases List.mem_cons.mp h with rfl | hp
      · simp
      · exact ih part hp
    · rw [if_neg hc] at h
      rcases List.mem_cons.mp h with rfl | hp
      · simp [Ne.symm hc, ih first (by simp)]
      · exact ih part (by simp [hp])

/-- A mark between two texts splits them from each other. -/
theorem split_append_cons (mark : Char) (ds : List Char) : ∀ cs : List Char,
    split mark (cs ++ mark :: ds) = split mark cs ++ split mark ds
  | [] => by simp [split]
  | c :: cs => by
    have ih := split_append_cons mark ds cs
    obtain ⟨part, rest, h⟩ := List.exists_cons_of_ne_nil (split_ne_nil mark cs)
    rw [List.cons_append, split, split, ih, h]
    by_cases hc : c = mark <;> simp [hc]

/-- Texts without a mark, joined with it, are split into themselves. -/
theorem map_split_intercalate {mark : Char} {separator : String}
    (hseparator : separator.toList = [mark]) {parts : List String} (hne : parts ≠ [])
    (h : ∀ s ∈ parts, mark ∉ s.toList) :
    (split mark (separator.intercalate parts).toList).map String.ofList = parts := by
  have hid : String.ofList ∘ String.toList = id := by
    funext s
    simp
  rw [String.toList_intercalate, split_eq_splitOn, hseparator,
    List.splitOn_intercalate mark (by simpa using h) (by simpa using hne), List.map_map, hid,
    List.map_id]

end Text

namespace Path

theorem ofText_ne_nil (t : String) : ofText t ≠ [] := by
  simp [ofText, Text.split_ne_nil]

theorem dot_not_mem_of_mem_ofText {t segment : String} (h : segment ∈ ofText t) :
    '.' ∉ segment.toList := by
  obtain ⟨part, hp, rfl⟩ := List.mem_map.mp h
  simpa using Text.not_mem_of_mem_split hp

/-- Segments without dots, joined, are split into themselves. -/
theorem ofText_text {path : Path} (hne : path ≠ []) (h : ∀ s ∈ path, '.' ∉ s.toList) :
    ofText (text path) = path :=
  Text.map_split_intercalate rfl hne h

theorem ofText_append_dot (t t' : String) : ofText (t ++ "." ++ t') = ofText t ++ ofText t' := by
  have hdot : ".".toList = ['.'] := rfl
  simp [ofText, hdot, Text.split_append_cons]

theorem text_cons_cons (first second : String) (rest : Path) :
    text (first :: second :: rest) = first ++ "." ++ text (second :: rest) := by
  simp [text, String.append_assoc]

/-- Segments, dots in them or not, are split one by one after they are joined. -/
theorem ofText_text_eq_flatMap : ∀ {path : Path}, path ≠ [] →
    ofText (text path) = path.flatMap ofText
  | [], h => absurd rfl h
  | [segment], _ => by simp [text]
  | first :: second :: rest, _ => by
    rw [text_cons_cons, ofText_append_dot, ofText_text_eq_flatMap (List.cons_ne_nil _ _)]
    rfl

/-! ## Plain segments -/

/-- A segment that is not empty and has no dot in it. -/
def Plain (segment : String) : Prop := segment ≠ "" ∧ '.' ∉ segment.toList

instance : DecidablePred Plain := fun _ => inferInstanceAs (Decidable (_ ∧ _))

/-- The segments of a text are plain if none is empty. -/
theorem plain_of_mem_ofText {t segment : String} (h : segment ∈ ofText t) (hne : segment ≠ "") :
    Plain segment :=
  ⟨hne, dot_not_mem_of_mem_ofText h⟩

theorem ofText_text_of_plain {path : Path} (hne : path ≠ []) (h : ∀ s ∈ path, Plain s) :
    ofText (text path) = path :=
  ofText_text hne fun s hs => (h s hs).2

/-- A path of plain segments is not written as the empty text. -/
theorem text_ne_empty_of_plain {path : Path} (hne : path ≠ []) (h : ∀ s ∈ path, Plain s) :
    text path ≠ "" := by
  intro ht
  have hp : path = [""] := by
    rw [← ofText_text_of_plain hne h, ht]
    rfl
  exact (h "" (by simp [hp])).1 rfl

/-- Paths of plain segments with the same written form are the same. -/
theorem text_inj {path path' : Path} (h : ∀ s ∈ path, Plain s) (h' : ∀ s ∈ path', Plain s)
    (ht : text path = text path') : path = path' := by
  by_cases hp : path = []
  · by_contra hne
    have hp' : path' ≠ [] := fun he => hne (hp.trans he.symm)
    exact text_ne_empty_of_plain hp' h' (by rw [← ht, hp]; rfl)
  · by_cases hp' : path' = []
    · exact absurd (by rw [ht, hp']; rfl) (text_ne_empty_of_plain hp h)
    · rw [← ofText_text_of_plain hp h, ht, ofText_text_of_plain hp' h']

end Path

/-! ## Positions -/

namespace Text

theorem digitValue?_of_isDigit {c : Char} (h : c.isDigit = true) :
    digitValue? c = some (c.toNat - '0'.toNat) := by
  have hr : 48 ≤ c.toNat ∧ c.toNat < 58 := by
    simp only [Char.isDigit, Bool.and_eq_true, decide_eq_true_eq] at h
    have h1 := UInt32.le_iff_toNat_le.mp h.1
    have h2 := UInt32.le_iff_toNat_le.mp h.2
    exact ⟨h1, Nat.lt_succ_of_le h2⟩
  simp [digitValue?, decimalZeros, hr]

theorem digitsValue_eq_ofDigitChars {cs : List Char} (h : ∀ c ∈ cs, c.isDigit = true) :
    digitsValue cs = Nat.ofDigitChars 10 cs 0 := by
  rw [digitsValue, Nat.ofDigitChars_eq_foldl]
  refine List.foldl_ext _ _ _ fun value c hc => ?_
  rw [digitValue?_of_isDigit (h c hc), Option.getD_some]

theorem toList_toString (n : Nat) : (toString n).toList = Nat.toDigits 10 n := by
  rw [Nat.toString_eq_repr, Nat.toList_repr]

theorem isDigit_of_mem_toString {n : Nat} {c : Char} (h : c ∈ (toString n).toList) :
    c.isDigit = true :=
  Nat.isDigit_of_mem_toDigits (by decide) (by decide) (toList_toString n ▸ h)

/-- The number of digits bounds a number. -/
theorem lt_pow_length_toDigits (n : Nat) : n < 10 ^ (Nat.toDigits 10 n).length := by
  induction n using Nat.strongRecOn with
  | ind n ih =>
    by_cases hn : n < 10
    · rw [Nat.toDigits_of_lt_base hn]
      exact hn
    · rw [Nat.toDigits_of_base_le (by decide) (Nat.not_lt.mp hn), List.length_append,
        List.length_singleton, Nat.pow_succ]
      have hquotient := ih (n / 10) (by omega)
      omega

/-- A number needs no more digits than the ones that bound it. -/
theorem isWritable_of_lt_pow {n digits : Nat} (h : n < 10 ^ digits)
    (hdigits : digits ≤ digitLimit) : isWritable n = true := by
  refine decide_eq_true (Nat.toDigits_length 10 n digitLimit (by decide) ?_)
  exact Nat.lt_of_lt_of_le h (Nat.pow_le_pow_right (by decide) hdigits)

/-- A number up to one that can be written can be written. -/
theorem isWritable_of_le {m n : Nat} (h : m ≤ n) (hn : isWritable n = true) :
    isWritable m = true :=
  isWritable_of_lt_pow (Nat.lt_of_le_of_lt h (lt_pow_length_toDigits n)) (of_decide_eq_true hn)

/-- The written form of a number is read as the position with that number. -/
theorem readIndex_toString {n : Nat} (h : isWritable n = true) :
    readIndex (toString n).toList = .position n := by
  have hvalue : ∀ c ∈ (toString n).toList, isDecimal c = true := fun c hc => by
    simp [isDecimal, digitValue?_of_isDigit (isDigit_of_mem_toString hc)]
  have hdecimal : (toString n).toList.all isDecimal = true := List.all_eq_true.mpr hvalue
  have hdigit : (toString n).toList.all isDigit = true :=
    List.all_eq_true.mpr fun c hc => by simp [isDigit, hvalue c hc]
  have hne : (toString n).toList.isEmpty = false := by
    simp [Nat.toDigits_ne_nil]
  have hsum : digitsValue (toString n).toList = n := by
    rw [digitsValue_eq_ofDigitChars fun c hc => isDigit_of_mem_toString hc, toList_toString,
      Nat.ofDigitChars_ten_toDigits]
  have hlength : (toString n).toList.length ≤ digitLimit := by
    rw [toList_toString]
    exact of_decide_eq_true h
  rw [readIndex, hdecimal, hdigit, hne, hsum, decide_eq_true hlength]
  rfl

end Text

namespace Path

/-- A written number is a plain segment. -/
theorem plain_toString (n : Nat) : Plain (toString n) := by
  constructor
  · intro h
    have hl := Text.toList_toString n
    rw [h] at hl
    exact Nat.toDigits_ne_nil hl.symm
  · intro h
    exact absurd (Text.isDigit_of_mem_toString h) (by decide)

/-- Whether the last segment writes a position in a list. -/
def endsInPosition (path : Path) : Bool :=
  path.getLast?.any fun segment => match Text.readIndex segment.toList with
    | .position _ => true
    | _ => false

theorem endsInPosition_singleton {segment : String} {n : Nat}
    (h : Text.readIndex segment.toList = .position n) : endsInPosition [segment] = true := by
  simp [endsInPosition, h]

theorem endsInPosition_cons {rest : Path} (h : endsInPosition rest = true) (segment : String) :
    endsInPosition (segment :: rest) = true := by
  cases rest with
  | nil => cases h
  | cons next rest => simpa [endsInPosition] using h

theorem toString_ne_wildcard (n : Nat) : toString n ≠ wildcard := by
  intro h
  have hmem : '*' ∈ (toString n).toList := by
    rw [h]
    decide
  exact absurd (Text.isDigit_of_mem_toString hmem) (by decide)

end Path

end RuleTree
