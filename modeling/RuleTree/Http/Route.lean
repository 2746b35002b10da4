import RuleTree.Text.Split
/-!
# Routes

The places of the interface, declared with the method and the path that they answer.
The path is fixed, or it has the name of a rule set in it.
-/

namespace RuleTree.Http

/-- A place among the rule sets. -/
inductive RuleSetEndpoint where
  /-- What the service offers, with the names of the rule sets. -/
  | overview
  | list
  | create
  | display
  | remove
  | graph
  | run
  | runSeveral
  | propagate
  | drill
  deriving DecidableEq

/-- A place of the interface. -/
inductive Endpoint where
  | health
  | evaluate
  | dependencies
  | ruleSets (e : RuleSetEndpoint)
  deriving DecidableEq

/-- The form of a path. -/
inductive Template where
  | fixed (path : String)
  /-- A name stands between two texts. -/
  | named (front back : String)
  deriving DecidableEq

/-- A place with the method and the path that it answers. -/
structure Declaration where
  method : String
  template : Template
  endpoint : Endpoint
  deriving DecidableEq

/-- The path of the evaluation route. -/
def evaluatePath : String := "/api/v1/logic/evaluate"

/-- The path of the dependency route. -/
def dependenciesPath : String := "/api/v1/logic/dependencies"

/-- The path of the rule sets. -/
def ruleSetsPath : String := "/api/v1/rulesets"

/-- What stands in front of the name of a rule set. -/
def ruleSetsFront : String := "/api/v1/rulesets/"

/-- What may stand behind the name of a rule set, with the method and the place. -/
def parts : List (String × String × RuleSetEndpoint) :=
  [("GET", "", .display), ("DELETE", "", .remove), ("GET", "/graph", .graph),
    ("POST", "/run", .run), ("POST", "/run-several", .runSeveral),
    ("GET", "/propagate", .propagate), ("POST", "/drill", .drill)]

/-- The places of the interface in the order in which they are declared. -/
def declarations : List Declaration :=
  [⟨"POST", .fixed evaluatePath, .evaluate⟩, ⟨"POST", .fixed dependenciesPath, .dependencies⟩,
    ⟨"GET", .fixed ruleSetsPath, .ruleSets .list⟩,
    ⟨"POST", .fixed ruleSetsPath, .ruleSets .create⟩] ++
  parts.map (fun (method, back, e) => ⟨method, .named ruleSetsFront back, .ruleSets e⟩) ++
  [⟨"GET", .fixed "/", .ruleSets .overview⟩, ⟨"GET", .fixed "/health", .health⟩]

end RuleTree.Http
