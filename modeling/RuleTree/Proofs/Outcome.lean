import Mathlib.Data.List.Forall2
/-!
# Outcomes of pipelines

A pipeline that gives a value is taken apart : at a bind (`exists_of_bind_eq_ok`), under a
change of errors (`of_mapError_eq_ok`) and at a traversal of a list
(`forall₂_of_mapM_eq_ok`, `exists_mem_of_mapM_eq_ok`). A failure is traced back to the part
that failed in the same three places (`of_bind_eq_error`, `exists_of_mapError_eq_error`,
`exists_mem_of_mapM_eq_error`).
-/

namespace RuleTree

variable {α β ε ε' : Type}

theorem exists_of_bind_eq_ok {x : Except ε α} {f : α → Except ε β} {r : β}
    (h : x >>= f = .ok r) : ∃ a, x = .ok a ∧ f a = .ok r := by
  cases x with
  | error e => cases h
  | ok a => exact ⟨a, rfl, h⟩

theorem exists_of_isOk {x : Except ε α} (h : x.isOk = true) : ∃ a, x = .ok a := by
  cases x with
  | error e => cases h
  | ok a => exact ⟨a, rfl⟩

theorem of_mapError_eq_ok {x : Except ε α} {f : ε → ε'} {r : α}
    (h : x.mapError f = .ok r) : x = .ok r := by
  cases x with
  | error e => cases h
  | ok a => exact congrArg Except.ok (Except.ok.inj h)

/-- A traversal that gives a list has a value for every item, in order. -/
theorem forall₂_of_mapM_eq_ok {f : α → Except ε β} : ∀ {items : List α} {found : List β},
    items.mapM f = .ok found → List.Forall₂ (fun a b => f a = .ok b) items found
  | [], found, h => by
    obtain rfl : [] = found := Except.ok.inj h
    exact .nil
  | a :: items, found, h => by
    rw [List.mapM_cons] at h
    obtain ⟨b, hb, h⟩ := exists_of_bind_eq_ok h
    obtain ⟨rest, hrest, h⟩ := exists_of_bind_eq_ok h
    obtain rfl : b :: rest = found := Except.ok.inj h
    exact .cons hb (forall₂_of_mapM_eq_ok hrest)

theorem mapM_eq_ok_of_forall₂ {f : α → Except ε β} {items : List α} {found : List β}
    (h : List.Forall₂ (fun a b => f a = .ok b) items found) : items.mapM f = .ok found := by
  induction h with
  | nil => rfl
  | cons ha _ ih =>
    rw [List.mapM_cons, ha, ih]
    rfl

/-- Each on the right is related to one on the left. -/
theorem exists_mem_left_of_forall₂ {R : α → β → Prop} {items : List α} {found : List β}
    (h : List.Forall₂ R items found) {b : β} (hb : b ∈ found) : ∃ a ∈ items, R a b := by
  induction h with
  | nil => cases hb
  | @cons a _ items _ ha _ ih =>
    rcases List.mem_cons.mp hb with rfl | hb
    · exact ⟨a, List.mem_cons_self .., ha⟩
    · obtain ⟨a', ha', hR⟩ := ih hb
      exact ⟨a', List.mem_cons_of_mem _ ha', hR⟩

theorem exists_mem_right_of_forall₂ {R : α → β → Prop} {items : List α} {found : List β}
    (h : List.Forall₂ R items found) {a : α} (ha : a ∈ items) : ∃ b ∈ found, R a b :=
  exists_mem_left_of_forall₂ h.flip ha

/-- A traversal that gives a list has the value of every item in it. -/
theorem exists_mem_of_mapM_eq_ok {f : α → Except ε β} {items : List α} {found : List β}
    (h : items.mapM f = .ok found) {a : α} (ha : a ∈ items) : ∃ b ∈ found, f a = .ok b :=
  exists_mem_right_of_forall₂ (forall₂_of_mapM_eq_ok h) ha

/-- What a traversal gives is the value of some item. -/
theorem exists_mem_of_mem_mapM {f : α → Except ε β} {items : List α} {found : List β}
    (h : items.mapM f = .ok found) {b : β} (hb : b ∈ found) : ∃ a ∈ items, f a = .ok b :=
  exists_mem_left_of_forall₂ (forall₂_of_mapM_eq_ok h) hb

/-- A traversal gives the same values for the same items in another order. -/
theorem exists_mapM_of_perm {f : α → Except ε β} {items items' : List α}
    (h : items.Perm items') : ∀ {found : List β}, items.mapM f = .ok found →
      ∃ found', items'.mapM f = .ok found' ∧ found.Perm found' := by
  induction h with
  | nil => exact fun hfound => ⟨_, hfound, .refl _⟩
  | cons a _ ih =>
    intro found hfound
    rw [List.mapM_cons] at hfound
    obtain ⟨b, hb, hfound⟩ := exists_of_bind_eq_ok hfound
    obtain ⟨rest, hrest, hfound⟩ := exists_of_bind_eq_ok hfound
    obtain rfl : b :: rest = found := Except.ok.inj hfound
    obtain ⟨rest', hrest', hperm⟩ := ih hrest
    refine ⟨b :: rest', ?_, hperm.cons b⟩
    rw [List.mapM_cons, hb, hrest']
    rfl
  | swap a a' items =>
    intro found hfound
    rw [List.mapM_cons, List.mapM_cons] at hfound
    obtain ⟨b', hb', hfound⟩ := exists_of_bind_eq_ok hfound
    obtain ⟨rest, hrest, hfound⟩ := exists_of_bind_eq_ok hfound
    obtain ⟨b, hb, hrest⟩ := exists_of_bind_eq_ok hrest
    obtain ⟨found', hfound', hrest⟩ := exists_of_bind_eq_ok hrest
    obtain rfl : b :: found' = rest := Except.ok.inj hrest
    obtain rfl : b' :: b :: found' = found := Except.ok.inj hfound
    refine ⟨b :: b' :: found', ?_, .swap ..⟩
    rw [List.mapM_cons, List.mapM_cons, hb, hb', hfound']
    rfl
  | trans _ _ ih ih' =>
    intro found hfound
    obtain ⟨middle, hmiddle, hperm⟩ := ih hfound
    obtain ⟨found', hfound', hperm'⟩ := ih' hmiddle
    exact ⟨found', hfound', hperm.trans hperm'⟩

/-- A traversal depends on what it does at the items only. -/
theorem mapM_congr {f f' : α → Except ε β} : ∀ {items : List α}, (∀ a ∈ items, f a = f' a) →
    items.mapM f = items.mapM f'
  | [], _ => rfl
  | a :: items, h => by
    rw [List.mapM_cons, List.mapM_cons, h a (List.mem_cons_self ..),
      mapM_congr fun a ha => h a (List.mem_cons_of_mem _ ha)]

/-- Traversals give lists with the same images if the values of each item have the same image. -/
theorem map_mapM_congr {γ : Type} {f g : α → Except ε β} {h : β → γ} : ∀ {items : List α},
    (∀ a ∈ items, (f a).map h = (g a).map h) →
      (items.mapM f).map (List.map h) = (items.mapM g).map (List.map h)
  | [], _ => rfl
  | a :: items, hsame => by
    obtain ⟨ha, hitems⟩ := List.forall_mem_cons.mp hsame
    have hrest := map_mapM_congr hitems
    have hcons : ∀ k : α → Except ε β, ((a :: items).mapM k).map (List.map h) =
        (k a).map h >>= fun b => (items.mapM k).map (List.map h) >>= fun bs => .ok (b :: bs) := by
      intro k
      rw [List.mapM_cons]
      rcases k a with _ | _ <;> rcases items.mapM k with _ | _ <;> rfl
    rw [hcons, hcons, ha, hrest]

/-! ## Failures -/

theorem of_bind_eq_error {x : Except ε α} {f : α → Except ε β} {e : ε}
    (h : x >>= f = .error e) : x = .error e ∨ ∃ a, x = .ok a ∧ f a = .error e := by
  cases x with
  | error e' => exact Or.inl (congrArg Except.error (Except.error.inj h))
  | ok a => exact Or.inr ⟨a, rfl, h⟩

theorem exists_of_mapError_eq_error {x : Except ε α} {f : ε → ε'} {e : ε'}
    (h : x.mapError f = .error e) : ∃ e', x = .error e' ∧ f e' = e := by
  cases x with
  | error e' => exact ⟨e', rfl, Except.error.inj h⟩
  | ok a => cases h

/-- A traversal fails with the error of some item. -/
theorem exists_mem_of_mapM_eq_error {f : α → Except ε β} {e : ε} : ∀ {items : List α},
    items.mapM f = .error e → ∃ a ∈ items, f a = .error e
  | [], h => by cases h
  | a :: items, h => by
    rw [List.mapM_cons] at h
    rcases of_bind_eq_error h with ha | ⟨b, -, h⟩
    · exact ⟨a, List.mem_cons_self .., ha⟩
    · rcases of_bind_eq_error h with hrest | ⟨rest, -, h⟩
      · obtain ⟨a', ha', he⟩ := exists_mem_of_mapM_eq_error hrest
        exact ⟨a', List.mem_cons_of_mem _ ha', he⟩
      · cases h

end RuleTree
