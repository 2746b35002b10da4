import RuleTree.Value.Basic
/-!
# Numbering containers

A reader builds containers without identities; numbering them afterwards tells
all containers of one input apart.
-/

namespace RuleTree.Value

mutual

/-- Give every container its own number, from `next` on; also gives the first unused one. -/
def numbered (ident : Nat → Ident) : Value → Nat → Value × Nat
  | list _ items, next =>
    let (items, rest) := numberedItems ident items (next + 1)
    (list (ident next) items, rest)
  | map _ entries, next =>
    let (entries, rest) := numberedEntries ident entries (next + 1)
    (map (ident next) entries, rest)
  | v, next => (v, next)
  termination_by structural v => v

/-- Number the containers of all items. -/
def numberedItems (ident : Nat → Ident) : List Value → Nat → List Value × Nat
  | [], next => ([], next)
  | v :: vs, next =>
    let (v, next) := numbered ident v next
    let (vs, next) := numberedItems ident vs next
    (v :: vs, next)
  termination_by structural vs => vs

/-- Number the containers of all entries. -/
def numberedEntries (ident : Nat → Ident) :
    List (String × Value) → Nat → List (String × Value) × Nat
  | [], next => ([], next)
  | (k, v) :: rest, next =>
    let (v, next) := numbered ident v next
    let (rest, next) := numberedEntries ident rest next
    ((k, v) :: rest, next)
  termination_by structural entries => entries

end

end RuleTree.Value
