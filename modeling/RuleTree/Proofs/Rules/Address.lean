import RuleTree.Rules.Expressions
import RuleTree.Rules.Find
import RuleTree.Proofs.Path.Written
import RuleTree.Proofs.Value.Keys
/-!
# Addresses of expressions

`Rules.StandsAt` says that an expression is met when an address is followed into a rule
tree : these are the expressions listed (`Rules.mem_expressions_iff`). An address is made
of positions in lists and of the keys on the way to expressions (`Rules.groupKeys`). If no
map has a key twice and no list is too long (`Rules.isWritable`), the rule found at an
address is its expression (`Rules.find_of_standsAt`).
-/

namespace RuleTree.Rules

/-! ## What stands at an address -/

/-- An expression stands at an address in a rule tree. -/
inductive StandsAt : Value → Path → Value → Prop
  | here {e : Value} (h : e.isExpression = true) : StandsAt e [] e
  | entry {id : Ident} {entries : List (String × Value)} {key : String} {v e : Value}
    {address : Path} (group : (Value.map id entries).isExpression = false)
    (mem : (key, v) ∈ entries) (below : StandsAt v address e) :
    StandsAt (.map id entries) (key :: address) e
  | item {id : Ident} {items : List Value} {n : Nat} {v e : Value} {address : Path}
    (get : items[n]? = some v) (below : StandsAt v address e) :
    StandsAt (.list id items) (toString n :: address) e

/-- The expressions in a group are those under its keys. -/
theorem mem_expressionsOfEntries {address : Path} {e : Value} :
    ∀ {entries : List (String × Value)}, (address, e) ∈ expressionsOfEntries entries ↔
      ∃ key v below, (key, v) ∈ entries ∧ (below, e) ∈ expressions v ∧ address = key :: below
  | [] => by simp [expressionsOfEntries]
  | (k, w) :: rest => by
    rw [expressionsOfEntries, List.mem_append, mem_expressionsOfEntries]
    constructor
    · rintro (h | ⟨key, v, below, hm, he, rfl⟩)
      · obtain ⟨⟨below, e'⟩, he, heq⟩ := List.mem_map.mp h
        obtain ⟨rfl, rfl⟩ := Prod.mk.inj heq
        exact ⟨k, w, below, by simp, he, rfl⟩
      · exact ⟨key, v, below, List.mem_cons_of_mem _ hm, he, rfl⟩
    · rintro ⟨key, v, below, hm, he, rfl⟩
      rcases List.mem_cons.mp hm with heq | hm
      · obtain ⟨rfl, rfl⟩ := Prod.mk.inj heq
        exact Or.inl (List.mem_map.mpr ⟨(below, e), he, rfl⟩)
      · exact Or.inr ⟨key, v, below, hm, he, rfl⟩

/-- The expressions in a list are those at its positions. -/
theorem mem_expressionsOfItems {address : Path} {e : Value} :
    ∀ {items : List Value} {position : Nat}, (address, e) ∈ expressionsOfItems position items ↔
      ∃ n v below, items[n]? = some v ∧ (below, e) ∈ expressions v ∧
        address = toString (position + n) :: below
  | [], _ => by simp [expressionsOfItems]
  | w :: rest, position => by
    rw [expressionsOfItems, List.mem_append, mem_expressionsOfItems]
    constructor
    · rintro (h | ⟨n, v, below, hn, he, rfl⟩)
      · obtain ⟨⟨below, e'⟩, he, heq⟩ := List.mem_map.mp h
        obtain ⟨rfl, rfl⟩ := Prod.mk.inj heq
        exact ⟨0, w, below, rfl, he, rfl⟩
      · exact ⟨n + 1, v, below, hn, he, by rw [Nat.add_right_comm, Nat.add_assoc]⟩
    · rintro ⟨n, v, below, hn, he, rfl⟩
      cases n with
      | zero =>
        obtain rfl := Option.some.inj hn
        exact Or.inl (List.mem_map.mpr ⟨(below, e), he, rfl⟩)
      | succ n =>
        exact Or.inr ⟨n, v, below, hn, he, by rw [Nat.add_right_comm, Nat.add_assoc]⟩

theorem expressions_map_of_isExpression {id : Ident} {entries : List (String × Value)}
    (h : (Value.map id entries).isExpression = true) :
    expressions (.map id entries) = [([], .map id entries)] := by
  rw [expressions, if_pos h]

theorem expressions_map_of_group {id : Ident} {entries : List (String × Value)}
    (h : (Value.map id entries).isExpression = false) :
    expressions (.map id entries) = expressionsOfEntries entries := by
  rw [expressions, if_neg (by simp [h])]

/-- The expressions listed are the ones that stand somewhere. -/
theorem mem_expressions_iff {rules : Value} : ∀ {address : Path} {e : Value},
    (address, e) ∈ expressions rules ↔ StandsAt rules address e := by
  induction rules using Value.induction with
  | scalar v h =>
    intro address e
    constructor
    · intro hm
      cases v <;> first | cases hm | cases h
    · intro hs
      cases hs with
      | here he => cases v <;> first | cases he | cases h
      | entry => cases h
      | item => cases h
  | list id items ih =>
    intro address e
    rw [expressions, mem_expressionsOfItems]
    constructor
    · rintro ⟨n, v, below, hn, he, rfl⟩
      rw [Nat.zero_add]
      exact .item hn ((ih v (List.mem_of_getElem? hn)).mp he)
    · intro hs
      cases hs with
      | here he => cases he
      | @item _ _ n v _ below hn hs =>
        refine ⟨n, v, below, hn, (ih v (List.mem_of_getElem? hn)).mpr hs, ?_⟩
        rw [Nat.zero_add]
  | map id entries ih =>
    intro address e
    cases hgroup : (Value.map id entries).isExpression with
    | true =>
      rw [expressions_map_of_isExpression hgroup, List.mem_singleton, Prod.mk.injEq]
      constructor
      · rintro ⟨rfl, rfl⟩
        exact .here hgroup
      · intro hs
        cases hs with
        | here => exact ⟨rfl, rfl⟩
        | entry hg => exact absurd (hgroup.symm.trans hg) (by decide)
    | false =>
      rw [expressions_map_of_group hgroup, mem_expressionsOfEntries]
      constructor
      · rintro ⟨key, v, below, hm, he, rfl⟩
        exact .entry hgroup hm ((ih key v hm).mp he)
      · intro hs
        cases hs with
        | here he => exact absurd (hgroup.symm.trans he) (by decide)
        | @entry _ _ key v _ below _ hm hs => exact ⟨key, v, below, hm, (ih key v hm).mpr hs, rfl⟩

/-- The paths that are listed are the written addresses of expressions. -/
theorem mem_paths_iff {rules : Value} {r : String} :
    r ∈ paths rules ↔ ∃ address e, StandsAt rules address e ∧ addressText address = r := by
  rw [paths, List.mem_map]
  constructor
  · rintro ⟨⟨address, e⟩, he, hr⟩
    exact ⟨address, e, mem_expressions_iff.mp he, hr⟩
  · rintro ⟨address, e, he, hr⟩
    exact ⟨(address, e), mem_expressions_iff.mpr he, hr⟩

/-- In a group an expression has an address that is not empty. -/
theorem StandsAt.ne_nil {rules e : Value} {address : Path} (h : StandsAt rules address e)
    (hr : rules.isExpression = false) : address ≠ [] := by
  cases h with
  | here he => exact absurd (hr.symm.trans he) (by decide)
  | entry => exact List.cons_ne_nil _ _
  | item => exact List.cons_ne_nil _ _

/-- In a scalar no expression stands. -/
theorem StandsAt.not_scalar {rules e : Value} {address : Path} (h : StandsAt rules address e) :
    rules.isScalar = false := by
  cases h with
  | here he => cases rules <;> first | rfl | cases he
  | entry => rfl
  | item => rfl

/-! ## Lists that are not too long -/

theorem isWritableItems_eq (items : List Value) : isWritableItems items = items.all isWritable := by
  induction items with
  | nil => rfl
  | cons v rest ih => rw [isWritableItems, ih, List.all_cons]

theorem isWritableEntries_eq (entries : List (String × Value)) :
    isWritableEntries entries = entries.all fun (_, v) => isWritable v := by
  induction entries with
  | nil => rfl
  | cons entry rest ih => rw [isWritableEntries, ih, List.all_cons]

theorem isWritable_of_mem_entries {id : Ident} {entries : List (String × Value)} {key : String}
    {v : Value} (group : (Value.map id entries).isExpression = false) (hm : (key, v) ∈ entries)
    (h : isWritable (.map id entries) = true) : isWritable v = true := by
  rw [isWritable, group, Bool.false_or, isWritableEntries_eq] at h
  exact List.all_eq_true.mp h (key, v) hm

/-- In a list that is not too long, every position can be written. -/
theorem isWritable_of_getElem? {id : Ident} {items : List Value} {n : Nat} {v : Value}
    (h : isWritable (.list id items) = true) (get : items[n]? = some v) :
    Text.isWritable n = true ∧ isWritable v = true := by
  rw [isWritable, isWritableItems_eq, Bool.and_eq_true] at h
  obtain ⟨hn, -⟩ := List.getElem?_eq_some_iff.mp get
  exact ⟨Text.isWritable_of_le (by omega) h.1,
    List.all_eq_true.mp h.2 v (List.mem_of_getElem? get)⟩

/-! ## Keys on the way -/

mutual

/-- The keys on the way to the expressions of a rule tree. -/
def groupKeys : Value → List String
  | .map id entries =>
    if (Value.map id entries).isExpression then [] else groupKeysOfEntries entries
  | .list _ items => groupKeysOfItems items
  | _ => []
  termination_by structural v => v

/-- The keys of a group that lead to expressions, with those further on. -/
def groupKeysOfEntries : List (String × Value) → List String
  | [] => []
  | (key, v) :: rest =>
    (if (expressions v).isEmpty then [] else key :: groupKeys v) ++ groupKeysOfEntries rest
  termination_by structural entries => entries

/-- The keys on the way to the expressions in a list. -/
def groupKeysOfItems : List Value → List String
  | [] => []
  | v :: rest => groupKeys v ++ groupKeysOfItems rest
  termination_by structural items => items

end

theorem groupKeysOfItems_eq (items : List Value) :
    groupKeysOfItems items = items.flatMap groupKeys := by
  induction items with
  | nil => rfl
  | cons v rest ih => rw [groupKeysOfItems, ih, List.flatMap_cons]

/-- The keys on the way to an expression are keys of groups. -/
theorem mem_groupKeysOfEntries {key : String} {v : Value} (hne : expressions v ≠ []) :
    ∀ {entries : List (String × Value)}, (key, v) ∈ entries → ∀ {s : String},
      s = key ∨ s ∈ groupKeys v → s ∈ groupKeysOfEntries entries
  | [], hm, _, _ => by cases hm
  | (k, w) :: rest, hm, s, hs => by
    rw [groupKeysOfEntries, List.mem_append]
    rcases List.mem_cons.mp hm with heq | hm
    · obtain ⟨rfl, rfl⟩ := Prod.mk.inj heq
      rw [if_neg (by simpa using hne), List.mem_cons]
      exact Or.inl hs
    · exact Or.inr (mem_groupKeysOfEntries hne hm hs)

/-- The segments of an address are keys on the way and positions, and these can be written in
rules without lists that are too long. -/
theorem StandsAt.mem_address {rules e : Value} {address : Path} (h : StandsAt rules address e) :
    ∀ s ∈ address, s ∈ groupKeys rules ∨
      ∃ n : Nat, s = toString n ∧ (isWritable rules = true → Text.isWritable n = true) := by
  induction h with
  | here => simp
  | @entry id entries key v e address group mem below ih =>
    intro s hs
    have hbelow := isWritable_of_mem_entries group mem
    have hne : expressions v ≠ [] := List.ne_nil_of_mem (mem_expressions_iff.mpr below)
    rw [groupKeys, if_neg (by simp [group])]
    rcases List.mem_cons.mp hs with rfl | hs
    · exact Or.inl (mem_groupKeysOfEntries hne mem (Or.inl rfl))
    · exact (ih s hs).imp (fun hk => mem_groupKeysOfEntries hne mem (Or.inr hk))
        fun ⟨n, hn, hwritable⟩ => ⟨n, hn, fun hw => hwritable (hbelow hw)⟩
  | @item id items n v e address get below ih =>
    intro s hs
    rcases List.mem_cons.mp hs with rfl | hs
    · exact Or.inr ⟨n, rfl, fun hw => (isWritable_of_getElem? hw get).1⟩
    · refine (ih s hs).imp (fun hk => ?_) fun ⟨n, hn, hwritable⟩ =>
        ⟨n, hn, fun hw => hwritable (isWritable_of_getElem? hw get).2⟩
      rw [groupKeys, groupKeysOfItems_eq]
      exact List.mem_flatMap.mpr ⟨v, List.mem_of_getElem? get, hk⟩

/-- What holds of the keys on the way and of positions holds of the segments of every
address. -/
theorem StandsAt.forall_mem_address {rules e : Value} {address : Path}
    (h : StandsAt rules address e) {P : String → Prop} (hkeys : ∀ key ∈ groupKeys rules, P key)
    (hpositions : ∀ n : Nat, P (toString n)) : ∀ s ∈ address, P s := by
  intro s hs
  rcases h.mem_address s hs with hk | ⟨n, rfl, -⟩
  · exact hkeys s hk
  · exact hpositions n

/-- As `StandsAt.forall_mem_address`, where only the positions that can be written matter. -/
theorem StandsAt.forall_mem_address_of_isWritable {rules e : Value} {address : Path}
    (h : StandsAt rules address e) (hw : isWritable rules = true) {P : String → Prop}
    (hkeys : ∀ key ∈ groupKeys rules, P key)
    (hpositions : ∀ n : Nat, Text.isWritable n = true → P (toString n)) : ∀ s ∈ address, P s := by
  intro s hs
  rcases h.mem_address s hs with hk | ⟨n, rfl, hn⟩
  · exact hkeys s hk
  · exact hpositions n (hn hw)

/-- The written form of an address with plain segments leaves out nothing. -/
theorem addressText_of_plain {address : Path} (h : ∀ s ∈ address, Path.Plain s) :
    addressText address = address.text := by
  cases address with
  | nil => rfl
  | cons first rest =>
    rw [addressText, List.dropWhile_cons_of_neg]
    simpa using (h first (by simp)).1

/-! ## Finding an expression -/

theorem find_of_isTerminal {rules : Value} (h : rules.isTerminal = true) (path : Path) :
    find path rules = .ok rules := by
  cases path <;> unfold find <;> rw [if_pos h]

theorem isTerminal_of_isExpression {e : Value} (h : e.isExpression = true) :
    e.isTerminal = true := by
  cases e <;> first | exact h | cases h

/-- The search for a rule goes on in a child that is no scalar. -/
theorem find_cons {rules v : Value} {segment : String} (rest : Path)
    (hrules : rules.isTerminal = false) (hchild : rules.child? segment = .ok (some v))
    (hv : v.isScalar = false) : find (segment :: rest) rules = find rest v := by
  have hnull : v ≠ .null := fun he => absurd (he ▸ hv) (by decide)
  have hne : ∀ id, rules = .map id [] → False := by
    rintro id rfl
    cases hchild
  rw [find, if_neg (by simp [hrules])]
  · rw [hchild]
    cases v <;> first | rfl | exact absurd rfl hnull
  · exact hne

/-- The rule at an expression's address is the expression. -/
theorem find_of_standsAt {rules e : Value} {address : Path} (h : StandsAt rules address e)
    (hw : isWritable rules = true) (hd : rules.distinctKeys = true) :
    find address rules = .ok e := by
  induction h with
  | here he => exact find_of_isTerminal (isTerminal_of_isExpression he) []
  | @entry id entries key v e address group mem below ih =>
    obtain ⟨hn, hv⟩ := Value.distinctKeys_map hd
    have hchild : (Value.map id entries).child? key = .ok (some v) := by
      rw [Value.child?, Entries.get?_of_mem hn mem]
    have hmap : (Value.map id entries).isTerminal = false := group
    rw [find_cons address hmap hchild below.not_scalar]
    exact ih (isWritable_of_mem_entries group mem hw) (hv key v mem)
  | @item id items n v e address get below ih =>
    have hmem := List.mem_of_getElem? get
    have hchild : (Value.list id items).child? (toString n) = .ok (some v) := by
      rw [Value.child?, Text.readIndex_toString (isWritable_of_getElem? hw get).1]
      exact congrArg Except.ok get
    -- a list with something that is no scalar is not terminal
    have hlist : (Value.list id items).isTerminal = false := by
      refine Bool.eq_false_iff.mpr fun ht => ?_
      have hs := List.all_eq_true.mp ht v hmem
      exact absurd (below.not_scalar.symm.trans hs) (by decide)
    rw [find_cons address hlist hchild below.not_scalar]
    exact ih (isWritable_of_getElem? hw get).2 (Value.distinctKeys_of_mem_items hd v hmem)

/-- One expression stands at an address. -/
theorem StandsAt.unique {rules e e' : Value} {address : Path} (h : StandsAt rules address e)
    (hw : isWritable rules = true) (hd : rules.distinctKeys = true)
    (h' : StandsAt rules address e') : e' = e :=
  Except.ok.inj ((find_of_standsAt h' hw hd).symm.trans (find_of_standsAt h hw hd))

/-- The segments of a written address lead to the expression as the address does, also to one
that is the whole tree : its written address has one segment, the empty one. -/
theorem find_ofText_of_standsAt {rules e : Value} {address : Path}
    (h : StandsAt rules address e) (hw : isWritable rules = true)
    (hd : rules.distinctKeys = true) (hplain : ∀ s ∈ address, Path.Plain s) :
    find (Path.ofText address.text) rules = .ok e := by
  by_cases hne : address = []
  · subst hne
    cases h with
    | here he => exact find_of_isTerminal (isTerminal_of_isExpression he) _
  · rw [Path.ofText_text_of_plain hne hplain]
    exact find_of_standsAt h hw hd

end RuleTree.Rules
