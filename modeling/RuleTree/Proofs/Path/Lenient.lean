import RuleTree.Path.Read
import RuleTree.Proofs.Rules.Descent
/-!
# Lenient readings

A lenient reading goes the way of the strict one, and it differs from it only where a segment
that is no wildcard names no child of a list or map : there the strict reading gives null and the
lenient one this list or map (`Value.read_lenient_eq_or`). Up to there every segment has led to a
child, so the path breaks off at the longest part of it that leads to anything
(`Value.BreaksOff`). Behind a wildcard the two do not differ at all.
-/

namespace RuleTree

open RuleTree.Path

namespace Value

open Rules (LiesAt)

variable {v inner found : Value} {segment : String} {rest path front : Path}

/-! ## Where a path breaks off -/

/-- Only a part of a path leads to anything in a value. The longest one leads to a list or map, and
no segment of it nor the one behind it is a wildcard. -/
structure BreaksOff (v : Value) (path front : Path) (found : Value) : Prop where
  leading : front <+: path
  short : front ≠ path
  liesAt : LiesAt v front found
  longest : ∀ longer, longer <+: path → (∃ w, LiesAt v longer w) → longer.length ≤ front.length
  container : found.isScalar = false
  named : wildcard ∉ path.take (front.length + 1)

/-- A path breaks off at once if its first segment names no child. -/
theorem breaksOff_here (hv : v.isScalar = false) (hs : segment ≠ wildcard)
    (hchild : v.child? segment = .ok none) (rest : Path) : BreaksOff v (segment :: rest) [] v where
  leading := List.nil_prefix
  short := (List.cons_ne_nil _ _).symm
  liesAt := .here v
  longest := by
    rintro longer hlonger ⟨w, hw⟩
    cases longer with
    | nil => exact Nat.le_refl 0
    | cons first longer =>
      obtain rfl : first = segment := (List.cons_prefix_cons.mp hlonger).1
      obtain ⟨inner, hinner, -⟩ := hw.exists_child?
      rw [hchild] at hinner
      cases hinner
  container := hv
  named := by simpa using hs.symm

/-- A path through a child breaks off where it does in the child. -/
theorem breaksOff_cons_iff (hs : segment ≠ wildcard)
    (hchild : v.child? segment = .ok (some inner)) :
    BreaksOff v (segment :: rest) (segment :: front) found ↔ BreaksOff inner rest front found := by
  have hbelow : ∀ {address w}, LiesAt v (segment :: address) w ↔ LiesAt inner address w := by
    refine fun {address w} => ⟨fun hw => ?_, .of_child? hchild⟩
    obtain ⟨inner', hinner', hw⟩ := hw.exists_child?
    obtain rfl : inner = inner' := by simpa [hchild] using hinner'
    exact hw
  have hnamed : wildcard ∉ (segment :: rest).take ((segment :: front).length + 1) ↔
      wildcard ∉ rest.take (front.length + 1) := by
    rw [List.length_cons, List.take_succ_cons, List.mem_cons, not_or]
    exact and_iff_right hs.symm
  constructor
  · rintro ⟨leading, short, liesAt, longest, container, named⟩
    refine ⟨(List.prefix_cons_inj _).mp leading, fun he => short (he ▸ rfl), hbelow.mp liesAt,
      fun longer hlonger ⟨w, hw⟩ => ?_, container, hnamed.mp named⟩
    have hlength := longest (segment :: longer) ((List.prefix_cons_inj _).mpr hlonger)
      ⟨w, hbelow.mpr hw⟩
    exact Nat.le_of_succ_le_succ hlength
  · rintro ⟨leading, short, liesAt, longest, container, named⟩
    refine ⟨(List.prefix_cons_inj _).mpr leading, fun he => short (List.cons.inj he).2,
      hbelow.mpr liesAt, ?_, container, hnamed.mpr named⟩
    rintro longer hlonger ⟨w, hw⟩
    cases longer with
    | nil => exact Nat.zero_le _
    | cons first longer =>
      obtain ⟨rfl, hrest⟩ := List.cons_prefix_cons.mp hlonger
      exact Nat.succ_le_succ (longest longer hrest ⟨w, hbelow.mp hw⟩)

/-! ## Both readings -/

/-- A lenient reading is the strict one, unless the path breaks off. Then the strict reading finds
nothing and the lenient one gives what the path has led to. -/
theorem read_lenient_eq_or : ∀ (path : Path) (v : Value),
    v.read path false = v.read path true ∨
      ∃ front found, v.read path true = .ok .null ∧ v.read path false = .ok found ∧
        BreaksOff v path front found
  | [], _ => Or.inl rfl
  | segment :: rest, v => by
    cases hv : v.isScalar with
    | true =>
      -- below a scalar it does not matter which reading was asked for
      left
      rw [read_scalar_cons hv, read_scalar_cons hv]
    | false =>
      by_cases hs : segment = wildcard
      · -- behind a wildcard both readings go on strictly
        have hcontainer : ¬ v.isScalar = true := by simp [hv]
        left
        rw [read, if_neg hcontainer, if_pos hs, read, if_neg hcontainer, if_pos hs]
      · rw [read_cons hv hs, read_cons hv hs]
        cases hchild : v.child? segment with
        | error e => exact Or.inl rfl
        | ok child =>
          cases child with
          | none => exact Or.inr ⟨[], v, rfl, rfl, breaksOff_here hv hs hchild rest⟩
          | some inner =>
            rcases read_lenient_eq_or rest inner with hsame | ⟨front, found, hread, hread', h⟩
            · exact Or.inl hsame
            · exact Or.inr ⟨segment :: front, found, hread, hread',
                (breaksOff_cons_iff hs hchild).mpr h⟩

/-- A reading along a path that breaks off fails, or it ends there. -/
theorem BreaksOff.read : ∀ {path front : Path} {v found result : Value} {strict : Bool},
    BreaksOff v path front found → v.read path strict = .ok result →
      result = if strict then .null else found
  | [], front, _, _, _, _, h, _ => absurd (List.prefix_nil.mp h.leading) h.short
  | segment :: rest, front, v, found, result, strict, h, hread => by
    have hs : segment ≠ wildcard := by
      have hnamed := h.named
      rw [List.take_succ_cons, List.mem_cons, not_or] at hnamed
      exact Ne.symm hnamed.1
    cases front with
    | nil =>
      cases h.liesAt
      rw [read_cons h.container hs] at hread
      cases hchild : v.child? segment with
      | error e =>
        rw [hchild] at hread
        cases hread
      | ok child =>
        cases child with
        | none =>
          rw [hchild] at hread
          exact (Except.ok.inj hread).symm
        | some inner =>
          have hlength := h.longest [segment] ((List.prefix_cons_inj _).mpr List.nil_prefix)
            ⟨inner, .of_child? hchild (.here inner)⟩
          exact absurd hlength (Nat.not_succ_le_zero 0)
    | cons first front =>
      obtain rfl : first = segment := (List.cons_prefix_cons.mp h.leading).1
      obtain ⟨inner, hchild, -⟩ := h.liesAt.exists_child?
      have hv : v.isScalar = false := by
        cases v with
        | list | map => rfl
        | _ => cases hchild
      rw [read_cons hv hs, hchild] at hread
      exact ((breaksOff_cons_iff hs hchild).mp h).read hread

/-- The two readings fail together. A value that the strict reading finds is what the lenient one
gives. If the strict reading gives null, the lenient one gives null too or the list or map at which
the path breaks off, and where a path breaks off they give just that. -/
theorem read_lenient (v : Value) (path : Path) :
    ((∃ e, v.read path false = .error e) ↔ ∃ e, v.read path true = .error e) ∧
    ∀ strict lenient, v.read path true = .ok strict → v.read path false = .ok lenient →
      (strict ≠ .null → lenient = strict) ∧
      (strict = .null → lenient = .null ∨ ∃ front, BreaksOff v path front lenient) ∧
      ∀ front found, BreaksOff v path front found → strict = .null ∧ lenient = found := by
  rcases read_lenient_eq_or path v with hsame | ⟨front, found, hstrict, hlenient, h⟩
  · refine ⟨by rw [hsame], fun strict lenient hs hl => ?_⟩
    obtain rfl : strict = lenient := Except.ok.inj (hs.symm.trans (hsame ▸ hl))
    exact ⟨fun _ => rfl, Or.inl, fun front found h => ⟨h.read hs, h.read hl⟩⟩
  · refine ⟨by simp [hstrict, hlenient], fun strict lenient hs hl => ?_⟩
    obtain rfl : found = lenient := Except.ok.inj (hlenient.symm.trans hl)
    have hnull : strict = .null := h.read hs
    exact ⟨fun hne => absurd hnull hne, fun _ => Or.inr ⟨front, h⟩,
      fun front found h => ⟨hnull, h.read hl⟩⟩

/-- An order with two lines, of which the second has no discount. -/
def discounts : Value := .ofEntries [("lines", .ofList [
  .ofEntries [("discount", .int 5)], .ofEntries [("price", .int 20)]])]

/-- The path breaks off at the second line, in front of the wildcard. -/
theorem read_lenient_of_discounts :
    discounts.read (ofText "lines.1.discount.*") true = .ok .null ∧
    discounts.read (ofText "lines.1.discount.*") false = .ok (.ofEntries [("price", .int 20)]) ∧
    ∃ front, BreaksOff discounts (ofText "lines.1.discount.*") front
      (.ofEntries [("price", .int 20)]) := by
  have hstrict : discounts.read (ofText "lines.1.discount.*") true = .ok .null := rfl
  have hlenient : discounts.read (ofText "lines.1.discount.*") false =
      .ok (.ofEntries [("price", .int 20)]) := rfl
  refine ⟨hstrict, hlenient, ?_⟩
  obtain ⟨-, hnull, -⟩ :=
    (read_lenient discounts (ofText "lines.1.discount.*")).2 _ _ hstrict hlenient
  exact (hnull rfl).resolve_left (by simp [ofEntries])

end Value

end RuleTree
