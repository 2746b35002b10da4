import RuleTree.Value.JsonSafe
/-!
# Requests and responses

A request has a method, a decoded path, the parameters of its query and maybe a JSON
body.
-/

namespace RuleTree.Http

/-- A request. -/
structure Request where
  method : String
  path : String
  query : List (String × String)
  body : Option Value

/-- The parameters of the query as an object of texts. -/
def Request.parameters (r : Request) : Value :=
  .ofEntries (r.query.map fun (key, text) => (key, .str text))

/-- A response; the body is null where there is none. -/
structure Response where
  status : Nat
  body : Value

namespace Response

/-- A response with a body made of fields. -/
def json (status : Nat) (fields : List (String × Value)) : Response :=
  ⟨status, .ofEntries fields⟩

/-- A response without a body. -/
def bare (status : Nat) : Response := ⟨status, .null⟩

/-- A response that tells what is wrong. -/
def detail (status : Nat) (text : String) : Response := json status [("detail", .str text)]

/-- The request is not of the form that the route asks for. -/
def unprocessable : Response := bare 422

/-- The request cannot be answered. -/
def failure : Response := bare 500

end Response

end RuleTree.Http
