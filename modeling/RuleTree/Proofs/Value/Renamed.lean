import RuleTree.Proofs.Value.Idents
import RuleTree.Proofs.Value.Size
import RuleTree.Expr.Operations
import Mathlib.Logic.Function.Basic
/-!
# Values with other containers

`Value.renamed` puts other containers in the place of those in a value. What a value counts as,
its written form and the facts found in it stay the same (`Value.toNumber_renamed`,
`Value.written_renamed`, `Value.factAt_renamed`), and as long as different containers stay
different, so does every comparison (`Value.strictEquals_renamed`). Hence an operator cannot tell
the containers apart (`Operator.applyTo_renamed`).
-/

namespace RuleTree

namespace Value

mutual

/-- A value with other identities of its containers. -/
def renamed (σ : Ident → Ident) : Value → Value
  | list id items => list (σ id) (renamedItems σ items)
  | map id entries => map (σ id) (renamedEntries σ entries)
  | v => v
  termination_by structural v => v

/-- Items with other identities of their containers. -/
def renamedItems (σ : Ident → Ident) : List Value → List Value
  | [] => []
  | v :: rest => renamed σ v :: renamedItems σ rest
  termination_by structural items => items

/-- Entries with other identities of their containers. -/
def renamedEntries (σ : Ident → Ident) : List (String × Value) → List (String × Value)
  | [] => []
  | (k, v) :: rest => (k, renamed σ v) :: renamedEntries σ rest
  termination_by structural entries => entries

end

/-- A value apart from the identities of its containers. -/
def shape (v : Value) : Value := v.renamed fun _ => .made 0

variable {σ τ : Ident → Ident} {v : Value} {id : Ident}

theorem renamed_list (id : Ident) (items : List Value) :
    (list id items).renamed σ = list (σ id) (items.map (renamed σ)) := by
  have hitems : renamedItems σ items = items.map (renamed σ) := by
    induction items with
    | nil => rfl
    | cons v rest ih => rw [renamedItems, ih, List.map_cons]
  rw [renamed, hitems]

theorem renamed_map (id : Ident) (entries : List (String × Value)) :
    (map id entries).renamed σ = map (σ id) (entries.map fun e => (e.1, e.2.renamed σ)) := by
  have hentries : renamedEntries σ entries = entries.map fun e => (e.1, e.2.renamed σ) := by
    induction entries with
    | nil => rfl
    | cons e rest ih => rw [renamedEntries, ih, List.map_cons]
  rw [renamed, hentries]

theorem renamed_scalar (hs : v.isScalar = true) : v.renamed σ = v := by
  cases v with
  | list | map => cases hs
  | _ => rfl

/-- A renaming that leaves the containers of a value alone leaves the value alone. -/
theorem renamed_eq_self (v : Value) (h : ∀ i ∈ v.idents, σ i = i) : v.renamed σ = v := by
  induction v using Value.induction with
  | scalar v hs => exact renamed_scalar hs
  | list id items ih =>
    rw [idents_list] at h
    obtain ⟨hid, hitems⟩ := List.forall_mem_cons.mp h
    have hsame : ∀ v ∈ items, v.renamed σ = v :=
      fun v hv => ih v hv fun i hi => hitems i (List.mem_flatMap.mpr ⟨v, hv, hi⟩)
    rw [renamed_list, hid, List.map_congr_left hsame, List.map_id']
  | map id entries ih =>
    rw [idents_map] at h
    obtain ⟨hid, hentries⟩ := List.forall_mem_cons.mp h
    have hsame : ∀ e ∈ entries, (e.1, e.2.renamed σ) = e := fun e he => congrArg (Prod.mk e.1)
      (ih e.1 e.2 he fun i hi => hentries i (List.mem_flatMap.mpr ⟨e, he, hi⟩))
    rw [renamed_map, hid, List.map_congr_left hsame, List.map_id']

/-- Two renamings, one after the other, are one. -/
theorem renamed_renamed (v : Value) : (v.renamed τ).renamed σ = v.renamed (σ ∘ τ) := by
  induction v using Value.induction with
  | scalar v hs => rw [renamed_scalar hs, renamed_scalar hs, renamed_scalar hs]
  | list id items ih =>
    rw [renamed_list, renamed_list, renamed_list, List.map_map]
    exact congrArg _ (List.map_congr_left ih)
  | map id entries ih =>
    rw [renamed_map, renamed_map, renamed_map, List.map_map]
    exact congrArg _ (List.map_congr_left fun e he => congrArg (Prod.mk e.1) (ih e.1 e.2 he))

/-- Other containers have the same shape. -/
theorem shape_renamed (v : Value) : (v.renamed σ).shape = v.shape := renamed_renamed v

/-! ## What a value counts as -/

theorem isTruthy_renamed (v : Value) : (v.renamed σ).isTruthy = v.isTruthy := by cases v <;> rfl

theorem isNull_renamed (v : Value) : (v.renamed σ).isNull = v.isNull := by cases v <;> rfl

theorem toNumber_two (id : Ident) (v w : Value) (rest : List Value) :
    (list id (v :: w :: rest)).toNumber = .nan := by
  simp only [toNumber]

/-- What a value counts as does not go by the names of containers. -/
theorem toNumber_renamed (v : Value) : (v.renamed σ).toNumber = v.toNumber := by
  induction v using Value.induction with
  | scalar v hs => rw [renamed_scalar hs]
  | map id entries => rfl
  | list id items ih =>
    match items with
    | [] | [.null] | [.bool _] | [.map ..] | [.num _] | [.str _] => rfl
    | [.list inner items] => exact ih (.list inner items) (List.mem_singleton_self _)
    | v :: w :: rest =>
      rw [renamed_list, List.map_cons, List.map_cons, toNumber_two, toNumber_two]

/-- How a value is written does not go by the names of containers. -/
theorem nested_renamed (v : Value) : spelling.nested (v.renamed σ) = spelling.nested v := by
  induction v using Value.induction with
  | scalar v hs => rw [renamed_scalar hs]
  | list id items ih =>
    rw [renamed_list, Spelling.nested, Spelling.nested, nested_items, nested_items, List.map_map]
    exact congrArg (fun texts => "[" ++ spelling.separator.intercalate texts ++ "]")
      (List.map_congr_left ih)
  | map id entries ih =>
    rw [renamed_map, Spelling.nested, Spelling.nested, nested_entries, nested_entries,
      List.map_map]
    refine congrArg (fun texts => "\x7b" ++ spelling.separator.intercalate texts ++ "\x7d") ?_
    exact List.map_congr_left fun e he => congrArg (_ ++ ·) (ih e.1 e.2 he)

theorem written_renamed (v : Value) : (v.renamed σ).written = v.written := by
  cases v with
  | str s => rfl
  | _ => exact nested_renamed _

/-- Whether a value can be written does not go by the names of containers either. -/
theorem isWritable_renamed (v : Value) : (v.renamed σ).isWritable = v.isWritable := by
  induction v using Value.induction with
  | scalar v hs => rw [renamed_scalar hs]
  | list id items ih =>
    rw [renamed_list, isWritable, isWritable, isWritableItems_eq, isWritableItems_eq,
      List.all_map, Bool.eq_iff_iff, List.all_eq_true, List.all_eq_true]
    exact forall₂_congr fun v hv => by rw [Function.comp_apply, ih v hv]
  | map id entries ih =>
    rw [renamed_map, isWritable, isWritable, isWritableEntries_eq, isWritableEntries_eq,
      List.all_map, Bool.eq_iff_iff, List.all_eq_true, List.all_eq_true]
    exact forall₂_congr fun e he => by rw [Function.comp_apply, ih e.1 e.2 he]

/-- A comparison sees no more of the containers than whether they are the same. -/
theorem strictEquals_renamed (hσ : σ.Injective) (v w : Value) :
    (v.renamed σ).strictEquals (w.renamed σ) = v.strictEquals w := by
  cases v <;> cases w <;> simp [renamed, strictEquals, hσ.eq_iff]

/-! ## Look-ups -/

theorem get?_renamed (key : String) (entries : List (String × Value)) :
    Entries.get? key (entries.map fun e => (e.1, e.2.renamed σ)) =
      (Entries.get? key entries).map (renamed σ) := by
  induction entries with
  | nil => rfl
  | cons e rest ih =>
    rw [List.map_cons, Entries.get?, Entries.get?]
    split
    · rfl
    · exact ih

theorem put_renamed (key : String) (v : Value) (entries : List (String × Value)) :
    Entries.put key (v.renamed σ) (entries.map fun e => (e.1, e.2.renamed σ)) =
      (Entries.put key v entries).map fun e => (e.1, e.2.renamed σ) := by
  induction entries with
  | nil => rfl
  | cons e rest ih =>
    rw [List.map_cons, Entries.put, Entries.put]
    split
    · rfl
    · rw [ih, List.map_cons]

theorem child?_renamed (segment : String) (v : Value) :
    (v.renamed σ).child? segment = (v.child? segment).map (Option.map (renamed σ)) := by
  cases v with
  | map id entries => rw [renamed_map, child?, get?_renamed]; rfl
  | list id items =>
    rw [renamed_list, child?, child?]
    cases Text.readIndex segment.toList with
    | position n => exact congrArg Except.ok List.getElem?_map
    | _ => rfl
  | _ => rfl

/-- A fact at a path is renamed with the facts. -/
theorem factAt_renamed : ∀ (path : Path) (v : Value),
    factAt path (v.renamed σ) = (factAt path v).map (renamed σ)
  | [], v => rfl
  | segment :: rest, v => by
    rw [factAt, factAt, child?_renamed]
    split
    · exact factAt_renamed rest v
    · cases v.child? segment with
      | error e => rfl
      | ok found =>
        have hinner : (found.map (renamed σ)).getD .null = (found.getD .null).renamed σ := by
          cases found <;> rfl
        change (if ((found.map (renamed σ)).getD .null).isTruthy then _ else _) =
          (if (found.getD .null).isTruthy then _ else _ : Except _ _).map _
        rw [hinner, isTruthy_renamed, apply_ite (Except.map _), factAt_renamed rest]
        rfl

end Value

/-! ## Operators -/

namespace Operator

variable {σ : Ident → Ident}

theorem operand_renamed (vs : List Value) (n : Nat) :
    operand (vs.map (Value.renamed σ)) n = (operand vs n).renamed σ := by
  rw [operand, operand, List.getElem?_map]
  cases vs[n]? <;> rfl

theorem applyToValues_renamed (hσ : σ.Injective) (op : Operator) (vs : List Value) :
    op.applyToValues (vs.map (Value.renamed σ)) = (op.applyToValues vs).renamed σ := by
  cases op <;> simp only [applyToValues, operand_renamed, Value.isTruthy_renamed,
    Value.strictEquals_renamed hσ] <;> rfl

/-- Numbers have no containers, and neither does what is made of them. -/
theorem applyToNumbers_renamed (op : Operator) (xs : List Number) :
    (op.applyToNumbers xs).map (Value.renamed σ) = op.applyToNumbers xs := by
  have hnum : ∀ x : Except Overflow Number,
      (x >>= fun n => pure (.num n)).map (Value.renamed σ) = x >>= fun n => pure (.num n) :=
    fun x => by cases x <;> rfl
  have hbool : ∀ x : Except Overflow Bool,
      (x >>= fun b => pure (.bool b)).map (Value.renamed σ) = x >>= fun b => pure (.bool b) :=
    fun x => by cases x <;> rfl
  cases op with
  | add | subtract | multiply | divide | minimum | maximum => exact hnum _
  | less | greater => exact hbool _
  | orElse =>
    have hfixed : ∀ n, (operand (xs.map Value.num) n).renamed σ = operand (xs.map Value.num) n := by
      intro n
      rw [operand, List.getElem?_map]
      cases xs[n]? <;> rfl
    rw [applyToNumbers]
    split
    · exact congrArg Except.ok (hfixed 0)
    · exact congrArg Except.ok (hfixed 1)
  | _ => rfl

/-- An operator does the same with other containers. -/
theorem applyTo_renamed (hσ : σ.Injective) (op : Operator) (vs : List Value) :
    op.applyTo (vs.map (Value.renamed σ)) = (op.applyTo vs).map (Value.renamed σ) := by
  have hnumbers : (vs.map (Value.renamed σ)).map Value.toNumber = vs.map Value.toNumber := by
    rw [List.map_map]
    exact List.map_congr_left fun v _ => v.toNumber_renamed
  rw [applyTo, applyTo, hnumbers]
  split
  · exact congrArg Except.ok (applyToValues_renamed hσ op vs)
  · exact (applyToNumbers_renamed op _).symm

end Operator

end RuleTree
