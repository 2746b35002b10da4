import RuleTree.Proofs.Rules.Reordered
import Mathlib.Data.List.Flatten
import Mathlib.Data.List.Nodup
/-!
# Listed expressions

`Rules.branches` are the entries and items that a rule tree goes on into. The expressions of
a group are those of its branches, one branch after the other
(`Rules.expressions_of_group`), so they are listed in the order of the tree
(`Rules.pairwise_expressions`), and no address twice if no map has a key twice
(`Rules.nodup_addresses`). The written addresses are the ones that a descent with the text
written so far collects (`Rules.paths_eq_collect`), empty keys and dots in keys included.
-/

namespace RuleTree.Rules

/-! ## Branches -/

/-- Where a rule tree goes on, in order : an expression and a constant go on nowhere. -/
def branches : Value → List (String × Value)
  | .map id entries => if (Value.map id entries).isExpression then [] else entries
  | .list _ items => items.zipIdx.map fun (v, position) => (toString position, v)
  | _ => []

theorem branches_map_of_group {id : Ident} {entries : List (String × Value)}
    (h : (Value.map id entries).isExpression = false) : branches (.map id entries) = entries := by
  rw [branches, if_neg (by simp [h])]

/-- The expressions in a list, with the position in front of each address. -/
theorem expressionsOfItems_eq : ∀ (position : Nat) (items : List Value),
    expressionsOfItems position items = (items.zipIdx position).flatMap fun (v, n) =>
      (expressions v).map fun (path, e) => (toString n :: path, e)
  | _, [] => rfl
  | position, v :: rest => by
    rw [expressionsOfItems, expressionsOfItems_eq, List.zipIdx_cons, List.flatMap_cons]

theorem expressions_of_isExpression {rules : Value} (h : rules.isExpression = true) :
    expressions rules = [([], rules)] := by
  cases rules <;> first | exact expressions_map_of_isExpression h | cases h

/-- The expressions of a group are those of its branches. -/
theorem expressions_of_group {rules : Value} (h : rules.isExpression = false) :
    expressions rules = (branches rules).flatMap fun (segment, v) =>
      (expressions v).map fun (path, e) => (segment :: path, e) := by
  cases rules with
  | map id entries =>
    rw [expressions_map_of_group h, expressionsOfEntries_eq, branches_map_of_group h]
  | list id items => rw [expressions, expressionsOfItems_eq, branches, List.flatMap_map]
  | null | bool | num | str => rfl

/-- Induction over a rule tree, with the hypothesis for every branch. -/
@[elab_as_elim]
theorem branches_induction {motive : Value → Prop}
    (step : ∀ rules, (∀ branch ∈ branches rules, motive branch.2) → motive rules)
    (rules : Value) : motive rules := by
  induction rules using Value.induction with
  | scalar v hs =>
    refine step v fun branch hb => ?_
    cases v <;> first | cases hb | cases hs
  | list id items ih =>
    refine step _ fun branch hb => ?_
    obtain ⟨⟨v, n⟩, hv, rfl⟩ := List.mem_map.mp hb
    exact ih v (List.fst_mem_of_mem_zipIdx hv)
  | map id entries ih =>
    refine step _ fun branch hb => ?_
    rw [branches] at hb
    split_ifs at hb with he
    · cases hb
    · exact ih branch.1 branch.2 hb

/-! ## The order of the tree -/

/-- An address is met before another one in a rule tree : where the two part, it goes into
the earlier branch. -/
inductive Precedes : Value → Path → Path → Prop
  | apart {rules : Value} {before after : String × Value} {address address' : Path}
    (order : [before, after].Sublist (branches rules)) :
    Precedes rules (before.1 :: address) (after.1 :: address')
  | along {rules : Value} {branch : String × Value} {address address' : Path}
    (mem : branch ∈ branches rules) (below : Precedes branch.2 address address') :
    Precedes rules (branch.1 :: address) (branch.1 :: address')

/-- The expressions are listed in the order of the tree. -/
theorem pairwise_expressions (rules : Value) :
    (expressions rules).Pairwise fun p q => Precedes rules p.1 q.1 := by
  induction rules using branches_induction with
  | step rules ih =>
    cases he : rules.isExpression with
    | true =>
      rw [expressions_of_isExpression he]
      exact List.pairwise_singleton _ _
    | false =>
      rw [expressions_of_group he, List.pairwise_flatMap]
      constructor
      · intro branch hb
        rw [List.pairwise_map]
        exact (ih branch hb).imp fun h => .along hb h
      · refine List.pairwise_iff_forall_sublist.mpr fun {before after} order p hp q hq => ?_
        obtain ⟨p, -, rfl⟩ := List.mem_map.mp hp
        obtain ⟨q, -, rfl⟩ := List.mem_map.mp hq
        exact .apart order

/-- The segments of the branches are distinct, and so are those further on. -/
theorem distinctKeys_branches {rules : Value} (h : rules.distinctKeys = true) :
    ((branches rules).map Prod.fst).Nodup ∧
      ∀ branch ∈ branches rules, branch.2.distinctKeys = true := by
  cases rules with
  | map id entries =>
    obtain ⟨hn, hbelow⟩ := Value.distinctKeys_map h
    rw [branches]
    split_ifs with he
    · exact ⟨List.nodup_nil, fun _ hb => by cases hb⟩
    · exact ⟨hn, fun branch hb => hbelow branch.1 branch.2 hb⟩
  | list id items =>
    constructor
    · have hpositions : (branches (.list id items)).map Prod.fst =
          (List.range items.length).map toString := by
        rw [branches, List.map_map, List.range_eq_range', ← List.zipIdx_map_snd 0 items,
          List.map_map]
        rfl
      rw [hpositions]
      refine List.Nodup.map (fun m n he => ?_) List.nodup_range
      have hvalue := Nat.ofDigitChars_ten_toDigits (n := m)
      rw [← Text.toList_toString, he, Text.toList_toString, Nat.ofDigitChars_ten_toDigits] at hvalue
      exact hvalue.symm
    · intro branch hb
      obtain ⟨⟨v, n⟩, hv, rfl⟩ := List.mem_map.mp hb
      exact Value.distinctKeys_of_mem_items h v (List.fst_mem_of_mem_zipIdx hv)
  | null | bool | num | str => exact ⟨List.nodup_nil, fun _ hb => by cases hb⟩

/-- An address that is met before another one differs from it. -/
theorem Precedes.ne {rules : Value} {address address' : Path}
    (h : Precedes rules address address') (hd : rules.distinctKeys = true) :
    address ≠ address' := by
  induction h with
  | apart order =>
    intro he
    have hkeys := (distinctKeys_branches hd).1.sublist (order.map Prod.fst)
    simp only [List.map_cons, List.map_nil, List.nodup_cons, List.mem_singleton] at hkeys
    exact hkeys.1 (List.cons.inj he).1
  | along mem _ ih =>
    intro he
    exact ih ((distinctKeys_branches hd).2 _ mem) (List.cons.inj he).2

/-- No address is listed twice. -/
theorem nodup_addresses {rules : Value} (hd : rules.distinctKeys = true) :
    ((expressions rules).map Prod.fst).Nodup :=
  List.pairwise_map.mpr ((pairwise_expressions rules).imp fun h => h.ne hd)

/-! ## Addresses written on the way -/

/-- The text written so far, with a segment added to it. -/
def prolonged (written segment : String) : String :=
  if written = "" then segment else written ++ "." ++ segment

mutual

/-- The written addresses of the expressions below the text written so far. -/
def collect (written : String) : Value → List String
  | .map id entries =>
    if (Value.map id entries).isExpression then [written] else collectEntries written entries
  | .list _ items => collectItems written 0 items
  | _ => []
  termination_by structural v => v

/-- The written addresses of the expressions under the keys of a group. -/
def collectEntries (written : String) : List (String × Value) → List String
  | [] => []
  | (key, v) :: rest => collect (prolonged written key) v ++ collectEntries written rest
  termination_by structural entries => entries

/-- The written addresses of the expressions in a list, whose first item has the given
position. -/
def collectItems (written : String) (position : Nat) : List Value → List String
  | [] => []
  | v :: rest =>
    collect (prolonged written (toString position)) v ++ collectItems written (position + 1) rest
  termination_by structural items => items

end

theorem collectEntries_eq (written : String) (entries : List (String × Value)) :
    collectEntries written entries =
      entries.flatMap fun (key, v) => collect (prolonged written key) v := by
  induction entries with
  | nil => rfl
  | cons entry rest ih => rw [collectEntries, ih, List.flatMap_cons]

theorem collectItems_eq (written : String) : ∀ (position : Nat) (items : List Value),
    collectItems written position items = (items.zipIdx position).flatMap fun (v, n) =>
      collect (prolonged written (toString n)) v
  | _, [] => rfl
  | position, v :: rest => by
    rw [collectItems, collectItems_eq, List.zipIdx_cons, List.flatMap_cons]

theorem collect_of_isExpression {rules : Value} (h : rules.isExpression = true)
    (written : String) : collect written rules = [written] := by
  cases rules with
  | map id entries => rw [collect, if_pos h]
  | list | null | bool | num | str => cases h

/-- The paths collected in a group are those of its branches. -/
theorem collect_of_group {rules : Value} (h : rules.isExpression = false) (written : String) :
    collect written rules =
      (branches rules).flatMap fun (segment, v) => collect (prolonged written segment) v := by
  cases rules with
  | map id entries =>
    rw [collect, if_neg (by simp [h]), collectEntries_eq, branches_map_of_group h]
  | list id items => rw [collect, collectItems_eq, branches, List.flatMap_map]
  | null | bool | num | str => rfl

/-- A segment added to an address is added to the text written for it. -/
theorem prolonged_addressText (before : Path) (segment : String) :
    prolonged (addressText before) segment = addressText (before ++ [segment]) := by
  rw [addressText, addressText, List.dropWhile_append]
  cases hb : before.dropWhile fun segment => segment = "" with
  | nil =>
    by_cases hs : segment = "" <;> simp [prolonged, Path.text, hs]
  | cons first rest =>
    have hfirst : first ≠ "" := by
      have hhead := List.head?_dropWhile_not (fun segment : String => segment = "") before
      rw [hb] at hhead
      simpa using hhead
    have hwritten : Path.text (first :: rest) ≠ "" := by
      cases rest <;> simp [Path.text, hfirst]
    rw [prolonged, if_neg hwritten, if_neg (by simp), Path.text, Path.text,
      String.intercalate_append_of_ne_nil (List.cons_ne_nil _ _) (List.cons_ne_nil _ _),
      String.intercalate_singleton]

/-- The written addresses are the ones collected on the way. -/
theorem collect_addressText (rules : Value) : ∀ before : Path,
    collect (addressText before) rules =
      (expressions rules).map fun p => addressText (before ++ p.1) := by
  induction rules using branches_induction with
  | step rules ih =>
    intro before
    cases he : rules.isExpression with
    | true =>
      rw [collect_of_isExpression he, expressions_of_isExpression he, List.map_singleton,
        List.append_nil]
    | false =>
      rw [collect_of_group he, expressions_of_group he, List.map_flatMap]
      refine List.flatMap_congr fun ⟨segment, v⟩ hb => ?_
      dsimp only
      rw [prolonged_addressText, ih _ hb, List.map_map]
      refine List.map_congr_left fun p _ => ?_
      rw [List.append_assoc]
      rfl

theorem paths_eq_collect (rules : Value) : paths rules = collect "" rules :=
  (collect_addressText rules []).symm

end RuleTree.Rules
