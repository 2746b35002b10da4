import RuleTree.Proofs.Rules.Recorded
/-!
# Reordered rules

Rules are reordered if the entries of their groups stand in another order (`Rules.Reordered`),
anywhere in the tree and not inside of expressions. The expressions stay the same but for
their order (`Rules.Reordered.expressions_perm`), and so do the edges
(`Rules.Reordered.exists_edges`).
-/

namespace RuleTree.Rules

/-- The same rules, with the entries of groups in another order. -/
inductive Reordered : Value → Value → Prop
  | refl (rules : Value) : Reordered rules rules
  | group {id id' : Ident} {entries entries' : List (String × Value)}
    (group : (Value.map id entries).isExpression = false) (perm : entries.Perm entries') :
    Reordered (.map id entries) (.map id' entries')
  | entry {id : Ident} {before after : List (String × Value)} {key : String} {v v' : Value}
    (group : (Value.map id (before ++ (key, v) :: after)).isExpression = false)
    (below : Reordered v v') :
    Reordered (.map id (before ++ (key, v) :: after)) (.map id (before ++ (key, v') :: after))
  | item {id : Ident} {before after : List Value} {v v' : Value} (below : Reordered v v') :
    Reordered (.list id (before ++ v :: after)) (.list id (before ++ v' :: after))
  | trans {rules middle rules' : Value} (first : Reordered rules middle)
    (second : Reordered middle rules') : Reordered rules rules'

/-! ## Expressions -/

/-- The keys of a map tell whether it is an expression. -/
theorem isExpression_map {id : Ident} {entries : List (String × Value)} :
    (Value.map id entries).isExpression = match Entries.keys entries with
      | [key] => (Operator.ofSymbol? key).isSome
      | _ => false := by
  match entries with
  | [] | [(_, _)] | _ :: _ :: _ => rfl

/-- The order of the keys does not matter for whether a map is an expression. -/
theorem isExpression_eq_of_perm (id id' : Ident) {entries entries' : List (String × Value)}
    (h : (Entries.keys entries).Perm (Entries.keys entries')) :
    (Value.map id entries).isExpression = (Value.map id' entries').isExpression := by
  rw [isExpression_map, isExpression_map]
  match hkeys : Entries.keys entries, hkeys' : Entries.keys entries' with
  | [], [] => rfl
  | [key], [key'] =>
    rw [hkeys, hkeys', List.singleton_perm_singleton] at h
    rw [h]
  | _ :: _ :: _, _ :: _ :: _ => rfl
  | [], _ :: _ | [_], [] | [_], _ :: _ :: _ | _ :: _ :: _, [] | _ :: _ :: _, [_] =>
    have hlength := h.length_eq
    simp [hkeys, hkeys'] at hlength

theorem expressionsOfEntries_eq (entries : List (String × Value)) :
    expressionsOfEntries entries = entries.flatMap fun (key, v) =>
      (expressions v).map fun (path, e) => (key :: path, e) := by
  induction entries with
  | nil => rfl
  | cons entry rest ih => rw [expressionsOfEntries, ih, List.flatMap_cons]

/-- The expressions in two lists, one behind the other. -/
theorem expressionsOfItems_append (after : List Value) : ∀ (position : Nat) (before : List Value),
    expressionsOfItems position (before ++ after) = expressionsOfItems position before ++
      expressionsOfItems (position + before.length) after
  | position, [] => rfl
  | position, v :: before => by
    rw [List.cons_append, expressionsOfItems, expressionsOfItems_append after, expressionsOfItems,
      List.append_assoc, List.length_cons, Nat.add_right_comm, Nat.add_assoc position]

/-- Reordered rules have the same expressions at the same addresses. -/
theorem Reordered.expressions_perm {rules rules' : Value} (h : Reordered rules rules') :
    (expressions rules).Perm (expressions rules') := by
  induction h with
  | refl => exact .refl _
  | @group id id' entries entries' group perm =>
    have hkeys : (Entries.keys entries).Perm (Entries.keys entries') := perm.map _
    have group' := (isExpression_eq_of_perm id id' hkeys).symm.trans group
    rw [expressions_map_of_group group, expressions_map_of_group group', expressionsOfEntries_eq,
      expressionsOfEntries_eq]
    exact perm.flatMap_right _
  | @entry id before after key v v' group _ ih =>
    have hkeys : Entries.keys (before ++ (key, v) :: after) =
        Entries.keys (before ++ (key, v') :: after) := by simp [Entries.keys]
    have group' := (isExpression_eq_of_perm id id (.of_eq hkeys)).symm.trans group
    rw [expressions_map_of_group group, expressions_map_of_group group', expressionsOfEntries_eq,
      expressionsOfEntries_eq, List.flatMap_append, List.flatMap_append, List.flatMap_cons,
      List.flatMap_cons]
    exact ((ih.map _).append_right _).append_left _
  | item _ ih =>
    rw [expressions, expressions, expressionsOfItems_append, expressionsOfItems_append,
      expressionsOfItems, expressionsOfItems]
    exact ((ih.map _).append_right _).append_left _
  | trans _ _ ih ih' => exact ih.trans ih'

/-- Reordered rules have lists of the same lengths. -/
theorem Reordered.isWritable_eq {rules rules' : Value} (h : Reordered rules rules') :
    isWritable rules = isWritable rules' := by
  induction h with
  | refl => rfl
  | @group id id' entries entries' group perm =>
    have group' := (isExpression_eq_of_perm id id' (perm.map _)).symm.trans group
    rw [isWritable, isWritable, group, group', isWritableEntries_eq, isWritableEntries_eq]
    exact congrArg _ perm.all_eq
  | @entry id before after key v v' group _ ih =>
    have hkeys : Entries.keys (before ++ (key, v) :: after) =
        Entries.keys (before ++ (key, v') :: after) := by simp [Entries.keys]
    have group' := (isExpression_eq_of_perm id id (.of_eq hkeys)).symm.trans group
    rw [isWritable, isWritable, group, group', isWritableEntries_eq, isWritableEntries_eq,
      List.all_append, List.all_append, List.all_cons, List.all_cons]
    dsimp only
    rw [ih]
  | item _ ih =>
    rw [isWritable, isWritable, isWritableItems_eq, isWritableItems_eq, List.all_append,
      List.all_append, List.all_cons, List.all_cons, ih, List.length_append, List.length_append,
      List.length_cons, List.length_cons]
  | trans _ _ ih ih' => exact ih.trans ih'

/-- Reordered rules have the same edges. -/
theorem Reordered.exists_edges {rules rules' : Value} (h : Reordered rules rules')
    {es : List Edge} (hes : edges rules = .ok es) :
    ∃ es', edges rules' = .ok es' ∧ es.Perm es' := by
  obtain ⟨each, heach, hw, rfl⟩ := exists_each_of_edges hes
  obtain ⟨each', heach', hperm⟩ := exists_mapM_of_perm h.expressions_perm heach
  refine ⟨each'.flatten, ?_, hperm.flatten⟩
  rw [edges, heach', ← h.isWritable_eq, hw]
  rfl

end RuleTree.Rules
