import RuleTree.Proofs.Outcome
import RuleTree.Proofs.Rules.Address
/-!
# The descent to a rule

A rule is looked up by following the segments of the path one by one (`Rules.descend`) : a
segment leads to the child that it names, and it is passed over where there is no such child or
where the descent has come to a terminal rule. The rule found is the value at the end, if that
is terminal (`Rules.find_eq_descend`). So the rule lies in the tree at an address made of some of
the segments (`Rules.exists_address_of_descend`), segments behind a rule do not matter, and
neither does one that names no child of what is reached before it (`Rules.find_eq_of_descend`).
-/

namespace RuleTree.Rules

/-! ## What lies at an address -/

/-- Every segment of the address is a key, or writes a position, of what lies at the segments
before it, and the last one leads to the value. -/
inductive LiesAt : Value → Path → Value → Prop
  | here (v : Value) : LiesAt v [] v
  | entry {id : Ident} {entries : List (String × Value)} {key : String} {v w : Value}
    {address : Path} (get : Entries.get? key entries = some v) (below : LiesAt v address w) :
    LiesAt (.map id entries) (key :: address) w
  | item {id : Ident} {items : List Value} {segment : String} {n : Nat} {v w : Value}
    {address : Path} (index : Text.readIndex segment.toList = .position n)
    (get : items[n]? = some v) (below : LiesAt v address w) :
    LiesAt (.list id items) (segment :: address) w

variable {rules reached rule : Value} {segment : String} {path : Path}

/-- What lies below a child lies below the value. -/
theorem LiesAt.of_child? {v w inner : Value} {address : Path}
    (hchild : v.child? segment = .ok (some inner)) (h : LiesAt inner address w) :
    LiesAt v (segment :: address) w := by
  cases v with
  | map id entries => exact .entry (Except.ok.inj hchild) h
  | list id items =>
    obtain ⟨n, hindex, hget⟩ := Value.child?_list hchild
    exact .item hindex hget h
  | _ => cases hchild

/-- What lies below a segment lies below the child that it names. -/
theorem LiesAt.exists_child? {v w : Value} {address : Path}
    (h : LiesAt v (segment :: address) w) :
    ∃ inner, v.child? segment = .ok (some inner) ∧ LiesAt inner address w := by
  cases h with
  | @entry id entries _ inner _ _ get below => exact ⟨inner, congrArg Except.ok get, below⟩
  | @item id items _ n inner _ _ index get below =>
    refine ⟨inner, ?_, below⟩
    rw [Value.child?, index]
    exact congrArg Except.ok get

/-! ## Descents -/

/-- What a segment leads to: the child that it names, or the value itself if there is no such
child or if the value is a terminal rule. -/
def step (v : Value) (segment : String) : Except MalformedIndex Value :=
  if v.isTerminal then .ok v else (v.child? segment).map fun child => child.getD v

/-- What the segments of a path lead to, one after the other. -/
def descend (path : Path) (rules : Value) : Except MalformedIndex Value := path.foldlM step rules

/-- The rule that a descent ends at: a value that is not terminal is none. -/
def ruleOf (v : Value) : Value := if v.isTerminal then v else .null

theorem ruleOf_of_isTerminal (h : reached.isTerminal = true) : ruleOf reached = reached :=
  if_pos h

theorem step_of_isTerminal (h : rules.isTerminal = true) (segment : String) :
    step rules segment = .ok rules :=
  if_pos h

theorem step_of_child? (h : rules.isTerminal = false) {child : Option Value}
    (hchild : rules.child? segment = .ok child) : step rules segment = .ok (child.getD rules) := by
  rw [step, if_neg (by simp [h]), hchild]
  rfl

/-- A segment that names no child is passed over. -/
theorem step_of_child?_none (hchild : rules.child? segment = .ok none) :
    step rules segment = .ok rules := by
  cases h : rules.isTerminal with
  | true => exact step_of_isTerminal h segment
  | false => exact step_of_child? h hchild

theorem descend_cons (segment : String) (rest : Path) (rules : Value) :
    descend (segment :: rest) rules = step rules segment >>= descend rest :=
  List.foldlM_cons

theorem descend_append (front back : Path) (rules : Value) :
    descend (front ++ back) rules = descend front rules >>= descend back :=
  List.foldlM_append

/-- A descent ends at a terminal rule, whatever is left of the path. -/
theorem descend_of_isTerminal (h : rules.isTerminal = true) (path : Path) :
    descend path rules = .ok rules := by
  induction path with
  | nil => rfl
  | cons segment rest ih => rw [descend_cons, step_of_isTerminal h]; exact ih

/-- A descent that passes over its first segment is that of the rest. -/
theorem descend_cons_of_step {rest : Path} (h : step rules segment = .ok reached) :
    descend (segment :: rest) rules = descend rest reached := by
  rw [descend_cons, h]
  rfl

/-- No segment leads out of an empty map. -/
theorem find_empty (id : Ident) (path : Path) : find path (.map id []) = .ok .null := by
  cases path <;> rfl

/-- The rule at a path is the one that the descent ends at. -/
theorem find_eq_descend : ∀ (path : Path) (rules : Value),
    find path rules = (descend path rules).map ruleOf
  | [], rules => rfl
  | segment :: rest, rules => by
    cases ht : rules.isTerminal with
    | true =>
      rw [descend_of_isTerminal ht, find_of_isTerminal ht]
      exact congrArg Except.ok (ruleOf_of_isTerminal ht).symm
    | false =>
      by_cases hempty : ∃ id, rules = .map id []
      · -- no segment leads out of the empty map, and it is no rule
        obtain ⟨id, rfl⟩ := hempty
        rw [descend_cons_of_step (step_of_child?_none rfl), ← find_eq_descend rest, find_empty,
          find_empty]
      · rw [find, if_neg (by simp [ht])]
        · cases hchild : rules.child? segment with
          | error e =>
            rw [descend_cons, step, if_neg (by simp [ht]), hchild]
            rfl
          | ok child =>
            rw [descend_cons_of_step (step_of_child? ht hchild)]
            cases child with
            | none => exact find_eq_descend rest rules
            | some inner =>
              cases inner with
              | null =>
                rw [Option.getD_some, descend_of_isTerminal rfl]
                rfl
              | _ => exact find_eq_descend rest _
        · exact fun id h => hempty ⟨id, h⟩

/-! ## Where a descent ends -/

/-- A step stays, or it goes on to a child. -/
theorem of_step (h : step rules segment = .ok reached) : reached = rules ∨
    rules.child? segment = .ok (some reached) := by
  cases ht : rules.isTerminal with
  | true => exact Or.inl (Except.ok.inj ((step_of_isTerminal ht segment).symm.trans h)).symm
  | false =>
    rw [step, if_neg (by simp [ht])] at h
    cases hchild : rules.child? segment with
    | error e => rw [hchild] at h; cases h
    | ok child =>
      rw [hchild] at h
      obtain rfl := Except.ok.inj h
      cases child with
      | none => exact Or.inl rfl
      | some inner => exact Or.inr rfl

/-- A descent ends at an address made of some of the segments, in their order. -/
theorem exists_address_of_descend : ∀ {path : Path} {rules : Value},
    descend path rules = .ok reached →
      ∃ address, address.Sublist path ∧ LiesAt rules address reached
  | [], rules, h => by
    obtain rfl : rules = reached := Except.ok.inj h
    exact ⟨[], .refl _, .here _⟩
  | segment :: rest, rules, h => by
    rw [descend_cons] at h
    obtain ⟨next, hstep, h⟩ := exists_of_bind_eq_ok h
    obtain ⟨address, hsub, hlies⟩ := exists_address_of_descend h
    rcases of_step hstep with rfl | hchild
    · exact ⟨address, hsub.cons segment, hlies⟩
    · exact ⟨segment :: address, hsub.cons_cons segment, hlies.of_child? hchild⟩

/-- A descent fails at malformed positions only. -/
theorem exists_descend : ∀ {path : Path}, (∀ s ∈ path, Text.readIndex s.toList ≠ .malformed) →
    ∀ rules : Value, ∃ reached, descend path rules = .ok reached
  | [], _, rules => ⟨rules, rfl⟩
  | segment :: rest, h, rules => by
    obtain ⟨hsegment, hrest⟩ := List.forall_mem_cons.mp h
    obtain ⟨child, hchild⟩ := Value.exists_child? hsegment rules
    obtain ⟨next, hstep⟩ : ∃ next, step rules segment = .ok next := by
      cases ht : rules.isTerminal with
      | true => exact ⟨rules, step_of_isTerminal ht segment⟩
      | false => exact ⟨_, step_of_child? ht hchild⟩
    rw [descend_cons_of_step hstep]
    exact exists_descend hrest next

/-! ## Looking up -/

theorem find_of_descend (h : descend path rules = .ok reached) :
    find path rules = .ok (ruleOf reached) := by
  rw [find_eq_descend, h]
  rfl

/-- What is found is the rule in what a descent reaches. -/
theorem exists_descend_of_find (h : find path rules = .ok rule) :
    ∃ reached, descend path rules = .ok reached ∧ ruleOf reached = rule := by
  rw [find_eq_descend] at h
  cases hd : descend path rules with
  | error e => rw [hd] at h; cases h
  | ok reached => rw [hd] at h; exact ⟨reached, rfl, Except.ok.inj h⟩

/-- A rule that is found is found by every longer path. -/
theorem find_append (h : find path rules = .ok rule) (hrule : rule ≠ .null) (more : Path) :
    find (path ++ more) rules = .ok rule := by
  obtain ⟨reached, hreached, rfl⟩ := exists_descend_of_find h
  have ht : reached.isTerminal = true := by
    by_contra ht
    exact hrule (if_neg ht)
  refine find_of_descend ?_
  rw [descend_append, hreached]
  exact descend_of_isTerminal ht more

/-- A segment that names no child of what is reached before it can be left out. -/
theorem find_eq_of_descend {front : Path} (hreached : descend front rules = .ok reached)
    (hchild : reached.child? segment = .ok none) (back : Path) :
    find (front ++ segment :: back) rules = find (front ++ back) rules := by
  have hsame : descend (front ++ segment :: back) rules = descend (front ++ back) rules := by
    calc descend (front ++ segment :: back) rules
        = descend (segment :: back) reached := by rw [descend_append, hreached]; rfl
      _ = descend back reached := descend_cons_of_step (step_of_child?_none hchild)
      _ = descend (front ++ back) rules := by rw [descend_append, hreached]; rfl
  rw [find_eq_descend, find_eq_descend, hsame]

/-- A look-up along segments that are no malformed positions gives a rule : what the descent ends
at, if that is terminal, and null otherwise. Then it lies in the tree at an address made of some
of the segments; if it is not null, every longer path leads to it too; and it is found without
a segment that names no child of what is reached before it. -/
theorem find_sound_stable (rules : Value)
    (hpath : ∀ s ∈ path, Text.readIndex s.toList ≠ .malformed) :
    ∃ reached rule, descend path rules = .ok reached ∧ find path rules = .ok rule ∧
      rule = ruleOf reached ∧
      (rule = .null ∨ rule.isTerminal = true ∧
        ∃ address, address.Sublist path ∧ LiesAt rules address rule) ∧
      (rule ≠ .null → ∀ more, find (path ++ more) rules = .ok rule) ∧
      ∀ front segment back before, path = front ++ segment :: back →
        descend front rules = .ok before → before.child? segment = .ok none →
        find (front ++ back) rules = .ok rule := by
  obtain ⟨reached, hreached⟩ := exists_descend hpath rules
  have hfind := find_of_descend hreached
  refine ⟨reached, ruleOf reached, hreached, hfind, rfl, ?_, find_append hfind, ?_⟩
  · cases ht : reached.isTerminal with
    | true =>
      rw [ruleOf_of_isTerminal ht]
      exact Or.inr ⟨ht, exists_address_of_descend hreached⟩
    | false => exact Or.inl (if_neg (by simp [ht]))
  · rintro front segment back before rfl hbefore hchild
    rw [← find_eq_of_descend hbefore hchild back, hfind]

/-- The rule for a line of an order. -/
def lineSum : Value := .ofEntries [("*", .ofList [.ofEntries [("var", .str "price")], .int 2])]

/-- Rules for an order, with those for its lines in a list. -/
def orderRules : Value := .ofEntries [("order", .ofEntries [
  ("lines", .ofList [.ofEntries [("sum", lineSum)], .ofEntries []]), ("paid", .bool true)])]

/-- The path has a segment that the order does not have, and goes on below the rule. -/
theorem find_sound_stable_of_orderRules :
    (∀ s ∈ ["order", "draft", "lines", "0", "sum"], Text.readIndex s.toList ≠ .malformed) ∧
    find ["order", "draft", "lines", "0", "sum"] orderRules = .ok lineSum ∧
    (∃ address, address.Sublist ["order", "draft", "lines", "0", "sum"] ∧
      LiesAt orderRules address lineSum) ∧
    find ["order", "draft", "lines", "0", "sum", "total"] orderRules = .ok lineSum ∧
    find ["order", "lines", "0", "sum"] orderRules = .ok lineSum := by
  have hpath : ∀ s ∈ ["order", "draft", "lines", "0", "sum"],
      Text.readIndex s.toList ≠ .malformed := by decide
  obtain ⟨reached, rule, -, hfind, -, hplace, hmore, hless⟩ := find_sound_stable orderRules hpath
  obtain rfl : lineSum = rule := Except.ok.inj (hfind.symm.trans rfl).symm
  have hne : lineSum ≠ .null := nofun
  obtain ⟨-, haddress⟩ := hplace.resolve_left hne
  exact ⟨hpath, hfind, haddress, hmore hne ["total"],
    hless ["order"] "draft" ["lines", "0", "sum"] _ rfl rfl rfl⟩

end RuleTree.Rules
