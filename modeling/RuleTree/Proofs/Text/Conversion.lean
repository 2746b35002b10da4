import RuleTree.Proofs.Text.Numeral
/-!
# Texts that count as numbers

A general conversion of texts to doubles takes more than numerals (`Text.Convertible`) :
underscores between digits, and the words for infinities and NaN in any case. Every numeral is
among what it takes, with the same double (`Text.Numeral.convertible`). So a text counts as a
number exactly if it is blank or a numeral with blanks around it (`Value.toNumber_str`).
-/

namespace RuleTree

namespace Double

theorem ofQuotient_ne_nan (negative : Bool) (num den : Nat) :
    ofQuotient negative num den ≠ .nan := by
  simp only [ofQuotient]
  split <;> exact nofun

/-- A decimal is read as a number. -/
theorem ofDecimal_ne_nan (negative : Bool) (digits : Nat) (exponent : Int) :
    ofDecimal negative digits exponent ≠ .nan := by
  simp only [ofDecimal]
  split
  · exact nofun
  split
  · exact nofun
  · exact ofQuotient_ne_nan _ _ _

end Double

namespace Text

/-! ## Converting -/

/-- Underscores stand between digits, each alone. -/
inductive Grouped : List Char → List Char → Prop
  | last {c : Char} (h : isDecimal c = true) : Grouped [c] [c]
  | next {c : Char} {cs digits : List Char} (h : isDecimal c = true) (hcs : Grouped cs digits) :
    Grouped (c :: cs) (c :: digits)
  | apart {c : Char} {cs digits : List Char} (h : isDecimal c = true) (hcs : Grouped cs digits) :
    Grouped (c :: '_' :: cs) (c :: digits)

/-- The words for infinities and NaN, in any case. -/
inductive AnyWord : List Char → Bool → Double → Prop
  | infinity {w : List Char} (negative : Bool)
    (h : w.map Char.toLower = "infinity".toList ∨ w.map Char.toLower = "inf".toList) :
    AnyWord w negative (.infinity negative)
  | nan {w : List Char} (negative : Bool) (h : w.map Char.toLower = "nan".toList) :
    AnyWord w negative .nan

/-- A text that a general conversion takes, with the double that it gives. -/
abbrev Convertible : List Char → Double → Prop := Writes Grouped AnyWord

/-- A text in which a word is replaced wherever it stands, from left to right; as many characters
as `skip` says belong to a word that is replaced already. -/
def replaceWord (word new : List Char) (skip : Nat) : List Char → List Char
  | [] => []
  | c :: cs =>
    match skip with
    | skip + 1 => replaceWord word new skip cs
    | 0 =>
      if word.isPrefixOf (c :: cs) then new ++ replaceWord word new (word.length - 1) cs
      else c :: replaceWord word new 0 cs

/-- A numeral as it is handed to the conversion, with the short word for an infinity. -/
def respelled (cs : List Char) : List Char :=
  replaceWord "Infinity".toList "inf".toList 0 cs

/-- A text without the capital letter of infinity is spelled as it is. -/
theorem respelled_of_not_mem : ∀ {cs : List Char}, 'I' ∉ cs → respelled cs = cs
  | [], _ => rfl
  | c :: cs, h => by
    obtain ⟨hc, hcs⟩ := not_or.mp (mt List.mem_cons.mpr h)
    have hword : "Infinity".toList = 'I' :: "nfinity".toList := rfl
    have hprefix : "Infinity".toList.isPrefixOf (c :: cs) = false := by
      rw [hword, List.isPrefixOf_cons_cons]
      simp [hc]
    rw [respelled, replaceWord, hprefix]
    exact congrArg (c :: ·) (respelled_of_not_mem hcs)

theorem Sign.not_mem {sign : List Char} {negative : Bool} (h : Sign sign negative) :
    'I' ∉ sign := by
  cases h <;> decide

theorem Plain.not_mem {w digits : List Char} (h : Plain w digits) : 'I' ∉ w := by
  obtain ⟨h⟩ := h
  exact fun hc => absurd (h.all 'I' hc) (by decide)

/-- A mantissa has no letter of infinity. -/
theorem Mantissa.not_mem {body whole fraction : List Char}
    (h : Mantissa Plain body whole fraction) : 'I' ∉ body := by
  cases h with
  | whole h => exact h.not_mem
  | point h => simp [h.not_mem]
  | both h hfraction => simp [h.not_mem, hfraction.not_mem]
  | fraction h => simp [h.not_mem]

theorem Exponent.not_mem {tail : List Char} {exponent : Int} (h : Exponent Plain tail exponent) :
    'I' ∉ tail := by
  cases h with
  | none => exact List.not_mem_nil
  | some hmark hsign h => rcases hmark with rfl | rfl <;> simp [hsign.not_mem, h.not_mem]

theorem Digits.grouped : ∀ {cs : List Char}, Digits cs → Grouped cs cs
  | [], h => absurd rfl h.ne_nil
  | [c], h => .last (h.all c (by simp))
  | c :: d :: cs, h =>
    have hrest : Digits (d :: cs) :=
      ⟨List.cons_ne_nil _ _, fun c hc => h.all c (List.mem_cons_of_mem _ hc)⟩
    .next (h.all c (by simp)) hrest.grouped

theorem Plain.grouped {w digits : List Char} (h : Plain w digits) : Grouped w digits := by
  obtain ⟨h⟩ := h
  exact h.grouped

/-- A mantissa of digits is one of grouped digits. -/
theorem Mantissa.grouped {body whole fraction : List Char}
    (h : Mantissa Plain body whole fraction) : Mantissa Grouped body whole fraction := by
  cases h with
  | whole h => exact .whole h.grouped
  | point h => exact .point h.grouped
  | both h hfraction => exact .both h.grouped hfraction.grouped
  | fraction h => exact .fraction h.grouped

theorem Exponent.grouped {tail : List Char} {exponent : Int} (h : Exponent Plain tail exponent) :
    Exponent Grouped tail exponent := by
  cases h with
  | none => exact .none
  | some hmark hsign h => exact .some hmark hsign h.grouped

/-- The conversion takes every numeral, and gives the double that it writes. -/
theorem Numeral.convertible {cs : List Char} {d : Double} (h : Numeral cs d) :
    Convertible (respelled cs) d := by
  cases h with
  | @word sign w negative d hsign hword =>
    obtain ⟨negative⟩ := hword
    have hshort : respelled (sign ++ "Infinity".toList) = sign ++ "inf".toList := by
      cases hsign <;> decide
    rw [hshort]
    exact .word hsign (.infinity negative (Or.inr (by decide)))
  | decimal hsign hbody htail =>
    have hmem := List.not_mem_append hsign.not_mem
      (List.not_mem_append hbody.not_mem htail.not_mem)
    rw [respelled_of_not_mem hmem]
    exact .decimal hsign hbody.grouped htail.grouped

/-- No numeral stands for NaN. -/
theorem Numeral.ne_nan {cs : List Char} {d : Double} (h : Numeral cs d) : d ≠ .nan := by
  cases h with
  | word hsign hword =>
    obtain ⟨negative⟩ := hword
    exact nofun
  | decimal => exact Double.ofDecimal_ne_nan _ _ _

theorem not_numeral_nil (d : Double) : ¬ Numeral [] d := by
  rw [← readDouble?_eq_some_iff]
  exact nofun

/-! ## Blanks around a text -/

/-- Characters to skip at the end are skipped only if everything in front of them is. -/
theorem dropWhile_append_of_forall {skip : Char → Bool} {back : List Char}
    (h : ∀ c ∈ back, skip c = true) (cs : List Char) :
    (cs ++ back).dropWhile skip = [] ∧ cs.dropWhile skip = [] ∨
      (cs ++ back).dropWhile skip = cs.dropWhile skip ++ back := by
  have hback : back.dropWhile skip = [] := List.dropWhile_eq_nil_iff.mpr h
  rw [List.dropWhile_append]
  split
  · next hcs => exact Or.inl ⟨hback, List.isEmpty_iff.mp hcs⟩
  · exact Or.inr rfl

/-- Characters of the class at both ends leave no trace. -/
theorem trimBy_append {skip : Char → Bool} {front back : List Char}
    (hfront : ∀ c ∈ front, skip c = true) (hback : ∀ c ∈ back, skip c = true) (cs : List Char) :
    trimBy skip (front ++ cs ++ back) = trimBy skip cs := by
  have hreverse : ∀ c ∈ back.reverse, skip c = true := fun c hc => hback c (List.mem_reverse.mp hc)
  rw [trimBy, trimBy, List.append_assoc, List.dropWhile_append_of_pos hfront]
  rcases dropWhile_append_of_forall hback cs with ⟨hboth, hcs⟩ | hboth
  · rw [hboth, hcs]
  · rw [hboth, List.reverse_append, List.dropWhile_append_of_pos hreverse]

/-! ## Texts as numbers -/

variable {s : String}

theorem toNumber_of_blank (h : trim s.toList = []) : toNumber s = .int 0 := by
  rw [toNumber, h]

/-- A text that is not blank counts as the double that is read in it, or as NaN. -/
theorem toNumber_of_not_blank (h : trim s.toList ≠ []) :
    toNumber s = .double ((readDouble? (trim s.toList)).getD .nan) := by
  rw [toNumber]
  split
  · next hblank => exact absurd hblank h
  · rfl

theorem toNumber_eq_int_iff : toNumber s = .int 0 ↔ trim s.toList = [] := by
  refine ⟨fun h => ?_, toNumber_of_blank⟩
  by_contra hne
  rw [toNumber_of_not_blank hne] at h
  cases h

/-- A text counts as a double exactly if it is a numeral for it. -/
theorem toNumber_eq_double_iff {d : Double} (hd : d ≠ .nan) :
    toNumber s = .double d ↔ Numeral (trim s.toList) d := by
  by_cases h : trim s.toList = []
  · rw [toNumber_of_blank h, h]
    exact ⟨nofun, fun hnumeral => absurd hnumeral (not_numeral_nil d)⟩
  · rw [toNumber_of_not_blank h, ← readDouble?_eq_some_iff]
    cases readDouble? (trim s.toList) with
    | none => simpa using hd.symm
    | some d' => simp

/-- A text counts as NaN exactly if it is neither blank nor a numeral. -/
theorem toNumber_eq_nan_iff : toNumber s = .nan ↔
    trim s.toList ≠ [] ∧ ∀ d, ¬ Numeral (trim s.toList) d := by
  constructor
  · intro h
    have hne : trim s.toList ≠ [] := by
      intro hblank
      rw [toNumber_of_blank hblank] at h
      cases h
    refine ⟨hne, fun d hnumeral => ?_⟩
    rw [(toNumber_eq_double_iff hnumeral.ne_nan).mpr hnumeral] at h
    exact hnumeral.ne_nan (Number.double.inj h)
  · rintro ⟨hne, hnumeral⟩
    rw [toNumber_of_not_blank hne]
    cases hread : readDouble? (trim s.toList) with
    | none => rfl
    | some d => exact absurd (readDouble?_eq_some_iff.mp hread) (hnumeral d)

theorem toNumber_append {front back : List Char} (h : ∀ c ∈ front ++ back, isBlank c = true)
    (s : String) : toNumber (String.ofList (front ++ s.toList ++ back)) = toNumber s := by
  obtain ⟨hfront, hback⟩ := List.forall_mem_append.mp h
  rw [toNumber, toNumber, String.toList_ofList, trim, trimBy_append hfront hback, trim]

end Text

open Text

/-- A text counts as the integer zero exactly if it is blank, as a double other than NaN exactly if
it is a numeral that writes it once trimmed, and as NaN otherwise. A numeral is converted without
failure, and blanks around a text change nothing. -/
theorem Value.toNumber_str (s : String) :
    ((str s).toNumber = .int 0 ↔ trim s.toList = []) ∧
      (∀ d, d ≠ .nan → ((str s).toNumber = .double d ↔ Numeral (trim s.toList) d)) ∧
      ((str s).toNumber = .nan ↔ trim s.toList ≠ [] ∧ ∀ d, ¬ Numeral (trim s.toList) d) ∧
      (∀ d, Numeral (trim s.toList) d → d ≠ .nan ∧ Convertible (respelled (trim s.toList)) d) ∧
      ∀ front back : List Char, (∀ c ∈ front ++ back, isBlank c = true) →
        (str (String.ofList (front ++ s.toList ++ back))).toNumber = (str s).toNumber :=
  ⟨toNumber_eq_int_iff, fun _ hd => toNumber_eq_double_iff hd, toNumber_eq_nan_iff,
    fun _ h => ⟨h.ne_nan, h.convertible⟩, fun _ _ h => toNumber_append h s⟩

-- a conversion takes underscores between digits, a numeral has none
example : Grouped "1_0".toList "10".toList ∧ (Value.str "1_0").toNumber = .nan :=
  ⟨.apart (by decide) (.last (by decide)), by decide⟩

end RuleTree
