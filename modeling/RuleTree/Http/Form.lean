import RuleTree.Graph.Basic
/-!
# Forms

What the bodies and the parameters of requests hold. A form is asked for as a list of
fields, and filled with one value for each of them.
-/

namespace RuleTree.Http

/-! ## Fields -/

/-- What a field holds. -/
inductive FieldKind where
  | any
  /-- A text of some length at least. -/
  | text (least : Nat)
  | truth
  | object
  | list
  /-- The name of a direction. -/
  | direction

/-- Whether a value is of a kind. -/
def FieldKind.has : FieldKind → Value → Bool
  | any, _ => true
  | text least, .str s => decide (least ≤ s.length)
  | truth, .bool _ => true
  | object, .map .. => true
  | list, .list .. => true
  | direction, .str s => (Direction.ofName? s).isSome
  | _, _ => false

/-- A field of a form. -/
structure Field where
  name : String
  kind : FieldKind
  /-- Whether null stands for no value. -/
  nullable : Bool := false
  /-- The value if the field is missing, for one that may be missing. -/
  standard : Option Value := none

/-- Whether a value may stand in a field. -/
def Field.has (f : Field) (v : Value) : Bool := f.kind.has v || (f.nullable && v.isNull)

/-! ## Forms -/

/-- An expression with facts. -/
structure EvaluateForm where
  logic : Value
  facts : Value

/-- A rule set to register. -/
structure RuleSetForm where
  name : String
  rules : Value
  replace : Bool

/-- A path to run with facts, null if there are none. -/
structure RunForm where
  path : String
  facts : Value

/-- A path to drill. -/
structure DrillForm where
  path : String
  facts : Value
  direction : Option Direction

/-- A path to propagate. -/
structure PropagateForm where
  path : String
  direction : Option Direction

namespace Form

/-- An expression and maybe facts. -/
def evaluateFields : List Field :=
  [{ name := "logic", kind := .any },
    { name := "facts", kind := .object, standard := some (.ofEntries []) }]

/-- An expression. -/
def dependenciesFields : List Field := [{ name := "logic", kind := .any }]

/-- A name that is not empty, rules, and maybe the leave to replace others. -/
def ruleSetFields : List Field :=
  [{ name := "name", kind := .text 1 }, { name := "rules", kind := .object },
    { name := "replace", kind := .truth, standard := some (.bool false) }]

/-- A path and maybe facts. -/
def runFields : List Field :=
  [{ name := "path", kind := .text 0 },
    { name := "facts", kind := .object, nullable := true, standard := some .null }]

/-- A list of forms with a path and maybe facts. -/
def runSeveralFields : List Field := [{ name := "entries", kind := .list }]

/-- A path, maybe facts and maybe a direction. -/
def drillFields : List Field :=
  runFields ++
    [{ name := "direction", kind := .direction, nullable := true, standard := some .null }]

/-- Maybe a direction. -/
def graphFields : List Field :=
  [{ name := "direction", kind := .direction
     standard := some (.str Direction.undirected.name) }]

/-- A path and maybe a direction. -/
def propagateFields : List Field :=
  [{ name := "path", kind := .text 0 },
    { name := "direction", kind := .direction, nullable := true, standard := some .null }]

/-- The direction that a value of a field names, none if it is null. -/
def direction? : Value → Option (Option Direction)
  | .null => some none
  | .str name => (Direction.ofName? name).map some
  | _ => none

/-- An expression with facts. -/
def evaluate? : List Value → Option EvaluateForm
  | [logic, facts] => some ⟨logic, facts⟩
  | _ => none

/-- An expression. -/
def dependencies? : List Value → Option Value
  | [logic] => some logic
  | _ => none

/-- A rule set to register. -/
def ruleSet? : List Value → Option RuleSetForm
  | [.str name, rules, .bool replace] => some ⟨name, rules, replace⟩
  | _ => none

/-- A path to run. -/
def run? : List Value → Option RunForm
  | [.str path, facts] => some ⟨path, facts⟩
  | _ => none

/-- Values each of which is a form again. -/
def runSeveral? : List Value → Option (List Value)
  | [.list _ items] => some items
  | _ => none

/-- A path to drill. -/
def drill? : List Value → Option DrillForm
  | [.str path, facts, direction] => (direction? direction).map fun d => ⟨path, facts, d⟩
  | _ => none

/-- A direction. -/
def graph? : List Value → Option Direction
  | [.str name] => Direction.ofName? name
  | _ => none

/-- A path to propagate. -/
def propagate? : List Value → Option PropagateForm
  | [.str path, direction] => (direction? direction).map fun d => ⟨path, d⟩
  | _ => none

end Form

end RuleTree.Http
