import RuleTree.Http.Form
import RuleTree.Http.Message
import RuleTree.Http.Route
/-!
# Frameworks

What the service leaves to the framework that it runs in: finding the place of a
request, checking the fields of a form, and writing values into a body.
-/

namespace RuleTree.Http

/-- The framework that a service runs in. -/
structure Framework where
  /-- The place of a method and a path with the name in the path, empty if it has none, or the
  answer to a request that fits no place. -/
  dispatch : List Declaration → String → String → Except Response (Endpoint × String)
  /-- The values of the fields in an object, if it is accepted. -/
  validate : List Field → Value → Option (List Value)
  /-- Whether a value of any form can be written into a body. -/
  encodes : Value → Bool

namespace Framework

variable {α : Type} (F : Framework)

/-- A response with a body made of fields; a failure if one of the given values in it, whose form
nothing tells, cannot be written. -/
def respond (status : Nat) (values : List Value) (fields : List (String × Value)) : Response :=
  if values.all F.encodes then .json status fields else .failure

/-- Answer a form, if the fields are accepted. -/
def withForm (fields : List Field) (read : List Value → Option α) (body : Option Value)
    (answer : α → Response) : Response :=
  match (body.bind (F.validate fields)).bind read with
  | some form => answer form
  | none => .unprocessable

/-- The forms in a list, if each of them is accepted. -/
def runForms? (items : List Value) : Option (List RunForm) :=
  items.mapM fun item => (F.validate Form.runFields item).bind Form.run?

end Framework

end RuleTree.Http
