import RuleTree.Number.Basic
import RuleTree.Text.Digit
/-!
# Values

Rules, facts and results are values: scalars, lists and maps with ordered
entries. A container carries an identity, which tells it from another container
with the same content.
-/

namespace RuleTree

/-- Which container it is. -/
inductive Ident where
  /-- It was handed in. -/
  | given (n : Nat)
  /-- It was read from a file. -/
  | loaded (n : Nat)
  /-- It was built on the way. -/
  | made (n : Nat)
  deriving DecidableEq, Inhabited

/-- A scalar, a list or a map. -/
inductive Value where
  | null
  | bool (b : Bool)
  | num (n : Number)
  | str (s : String)
  | list (id : Ident) (items : List Value)
  | map (id : Ident) (entries : List (String × Value))
  deriving Inhabited

/-- A text of digits that has no value as a position was used on a list. -/
structure MalformedIndex where
  deriving DecidableEq

/-! ## Entries -/

namespace Entries

variable {α : Type}

/-- The value under a key. -/
def get? (key : String) : List (String × α) → Option α
  | [] => none
  | (k, v) :: rest => if k = key then some v else get? key rest

/-- Bind a key: in its place if it is there, at the end otherwise. -/
def put (key : String) (value : α) : List (String × α) → List (String × α)
  | [] => [(key, value)]
  | (k, v) :: rest => if k = key then (k, value) :: rest else (k, v) :: put key value rest

/-- Bind a key unless it is there. -/
def putIfNew (key : String) (value : α) (entries : List (String × α)) : List (String × α) :=
  if (get? key entries).isSome then entries else put key value entries

/-- Unbind a key. -/
def erase (key : String) (entries : List (String × α)) : List (String × α) :=
  entries.filter fun (k, _) => k ≠ key

/-- The keys in order. -/
def keys (entries : List (String × α)) : List String := entries.map Prod.fst

/-- The values in order. -/
def values (entries : List (String × α)) : List α := entries.map Prod.snd

theorem get?_put_self (key : String) (value : α) (entries : List (String × α)) :
    get? key (put key value entries) = some value := by
  induction entries with
  | nil => simp [put, get?]
  | cons e rest ih =>
    obtain ⟨k, v⟩ := e
    by_cases h : k = key <;> simp [put, get?, h, ih]

theorem get?_put_of_ne {key other : String} (h : other ≠ key) (value : α)
    (entries : List (String × α)) :
    get? other (put key value entries) = get? other entries := by
  induction entries with
  | nil => simp [put, get?, h.symm]
  | cons e rest ih =>
    obtain ⟨k, v⟩ := e
    by_cases hk : k = key
    · simp [put, get?, hk, h.symm]
    · by_cases ho : k = other <;> simp [put, get?, hk, ho, h, ih]

end Entries

namespace Value

/-- A list whose identity nothing asks for. -/
def ofList (items : List Value) : Value := list (.made 0) items

/-- A map whose identity nothing asks for. -/
def ofEntries (entries : List (String × Value)) : Value := map (.made 0) entries

/-- A list of texts. -/
def ofTexts (texts : List String) : Value := ofList (texts.map str)

/-- An integer. -/
def int (n : Int) : Value := num (.int n)

/-- Whether it is neither a list nor a map. -/
def isScalar : Value → Bool
  | list .. => false
  | map .. => false
  | _ => true

/-- Whether it is null. -/
def isNull : Value → Bool
  | null => true
  | _ => false

/-- Whether it is a map. -/
def isMap : Value → Bool
  | map .. => true
  | _ => false

/-- Whether it counts as true: null, false, zero, NaN and the empty text do not. -/
def isTruthy : Value → Bool
  | null => false
  | bool b => b
  | num (.int n) => decide (n ≠ 0)
  | num (.double d) => !d.isZero && decide (d ≠ .nan)
  | str s => decide (s ≠ "")
  | list .. => true
  | map .. => true

/-- The name of its type. -/
def typeName : Value → String
  | null => "NoneType"
  | bool _ => "bool"
  | num (.int _) => "int"
  | num (.double _) => "float"
  | str _ => "str"
  | list .. => "list"
  | map .. => "dict"

/-! ## Children -/

/-- The value under a segment: an entry of a map or, for a text of digits, an item of
a list. -/
def child? (segment : String) : Value → Except MalformedIndex (Option Value)
  | map _ entries => .ok (Entries.get? segment entries)
  | list _ items =>
    match Text.readIndex segment.toList with
    | .notDigits => .ok none
    | .malformed => .error {}
    | .position n => .ok items[n]?
  | _ => .ok none

/-- The values directly inside. -/
def children : Value → List Value
  | list _ items => items
  | map _ entries => Entries.values entries
  | _ => []

end Value

end RuleTree
