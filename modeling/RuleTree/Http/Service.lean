import RuleTree.Http.Framework
import RuleTree.Registry
/-!
# The service

The interface over HTTP: expressions are evaluated on the spot, rule sets are kept
in a registry. The framework finds the place of a request and checks its form before
the rule set that it names is looked up. A fault of an expression is told to the
client; any other error is a failure, apart from errors in rules to register.
Settings that cannot be read make every request on rule sets a failure.
-/

namespace RuleTree

namespace Http

/-- The service between two requests. -/
structure Service where
  registry : Except SettingsError Registry

/-- Why the service does not start. -/
inductive StartError where
  | settings (e : SettingsError)
  | notDirectory
  deriving DecidableEq

/-- The version that the service tells. -/
def version : String := "0.1.0"

/-- The variable that names the directory of rule files to start with. -/
def directoryVariable : String := "FORMLOGIC_RULES_DIR"

/-! ## Answers about expressions -/

/-- The answer to an evaluation error. -/
def evalFailure (start : String) (e : EvalError) : Response :=
  if e.isFault then .detail 400 (start ++ e.message?.getD "") else .failure

/-- Evaluate an expression. -/
def answerEvaluate (F : Framework) (form : EvaluateForm) : Response :=
  match evaluate form.logic form.facts defaultDepthLimit with
  | .ok v => F.respond 200 [v] [("result", v.jsonSafe)]
  | .error e => evalFailure "표현식 평가 실패: " e

/-- List the dependencies of an expression. -/
def answerDependencies (logic : Value) : Response :=
  match (Expr.ofValue logic).dependencies with
  | .ok paths => .json 200 [("dependencies", .ofTexts paths)]
  | .error e => evalFailure "의존성 추출 실패: " e

/-! ## Answers about rule sets -/

/-- There is no rule set of this name. -/
def noRuleSet (name : String) : Response :=
  .detail 404 ("규칙 묶음을 찾을 수 없습니다: " ++ name)

/-- Answer for the engine of a rule set. -/
def withEngine (r : Registry) (name : String) (answer : Engine → Response) : Response :=
  match r.engine? name with
  | some e => answer e
  | none => noRuleSet name

/-- The answer to an engine error. -/
def engineFailure (start : String) : EngineError → Response
  | .evaluation e => evalFailure start e
  | .propagation e =>
    match e.message? with
    | some text => .detail 409 text
    | none => .failure
  | _ => .failure

/-- Show a rule set. -/
def showRuleSet (F : Framework) (status : Nat) (name : String) (e : Engine) : Response :=
  let forward := e.graph.view .forward
  let backward := e.graph.view .backward
  F.respond status (forward.entryValues ++ backward.entryValues) [
    ("name", .str name), ("rule_paths", .ofTexts e.rulePaths), ("forward", forward),
    ("backward", backward)]

/-- Show the root. -/
def showRoot (r : Registry) : Response :=
  .json 200 [
    ("message", .str "formlogic 규칙 평가 API"), ("version", .str version),
    ("rulesets", .ofTexts r.names),
    ("endpoints", .ofEntries [
      ("evaluate", .str evaluatePath), ("dependencies", .str dependenciesPath),
      ("rulesets", .str ruleSetsPath)]),
    ("docs", .str "/docs")]

/-- List the rule sets. -/
def showRuleSets (r : Registry) : Response :=
  .json 200 [("names", .ofTexts r.names), ("total", .int r.names.length)]

/-- Register a rule set. The client is told of every error in the rules. -/
def answerRegister (F : Framework) (r : Registry) (form : RuleSetForm) : Response × Registry :=
  match (r.register form.name form.rules form.replace).outcome.1 with
  | .ok (e, r) => (showRuleSet F 201 form.name e, r)
  | .error (.nameTaken name) =>
    (.detail 409 ((RegistrationError.nameTaken name).message?.getD ""), r)
  | .error (.rules e) => (.detail 400 ("규칙 묶음 등록 실패: " ++ e.message?.getD ""), r)

/-- Remove a rule set. -/
def answerRemove (r : Registry) (name : String) : Response × Registry :=
  if r.contains name then (.bare 204, r.remove name) else (noRuleSet name, r)

/-- Show the graph of a rule set. -/
def showGraph (F : Framework) (r : Registry) (name : String) (direction : Direction) : Response :=
  withEngine r name fun e =>
    let graph := e.graph.view direction
    F.respond 200 graph.entryValues [
      ("name", .str name), ("direction", .str direction.name), ("graph", graph)]

/-- The result of a run. -/
def showRun (path : String) (v : Value) : List (String × Value) :=
  [("path", .str path), ("result", v.jsonSafe)]

/-- Run a rule. -/
def answerRun (F : Framework) (r : Registry) (name : String) (form : RunForm) : Response :=
  withEngine r name fun e =>
    match (e.run (.str form.path) form.facts).outcome.1 with
    | .ok v => F.respond 200 [v] (showRun form.path v)
    | .error error => engineFailure ("규칙 실행 실패 (" ++ form.path ++ "): ") error

/-- Run several rules. -/
def answerRunSeveral (F : Framework) (r : Registry) (name : String) (forms : List RunForm) :
    Response :=
  withEngine r name fun e =>
    let entries := forms.map fun form => .ofList [.str form.path, form.facts]
    match (e.runSeveral (.ofList entries)).outcome.1 with
    | .ok vs =>
      let results := List.zipWith (fun form v => .ofEntries (showRun form.path v)) forms vs
      F.respond 200 vs [("results", .ofList results)]
    | .error error => engineFailure "규칙 실행 실패: " error

/-- List what a path leads to; the answer holds texts only. -/
def answerPropagate (r : Registry) (name : String) (form : PropagateForm) : Response :=
  withEngine r name fun e =>
    let direction := form.direction.getD e.settings.direction
    match e.propagate (.str form.path) direction with
    | .error error => engineFailure "" error
    | .ok paths =>
      if (Graph.texts? paths).isNone then .failure
      else .json 200 [
        ("path", .str form.path), ("direction", .str direction.name), ("paths", .ofList paths)]

/-- Run a path and all that it leads to; the answer holds texts as paths only. -/
def answerDrill (F : Framework) (r : Registry) (name : String) (form : DrillForm) : Response :=
  withEngine r name fun e =>
    let direction := form.direction.getD e.settings.direction
    match e.drillPaths (.str form.path) direction,
        (e.drill (.str form.path) form.facts direction).outcome.1 with
    | .ok paths, .ok results =>
      if (Graph.texts? paths).isNone then .failure
      else F.respond 200 results [
        ("paths", .ofList paths), ("results", .ofList (results.map Value.jsonSafe))]
    | .error error, _ => engineFailure "규칙 실행 실패: " error
    | _, .error error => engineFailure "규칙 실행 실패: " error

/-! ## Requests -/

/-- Answer a request to register a rule set. -/
def answerCreate (F : Framework) (r : Registry) (body : Option Value) : Response × Registry :=
  match (body.bind (F.validate Form.ruleSetFields)).bind Form.ruleSet? with
  | some form => answerRegister F r form
  | none => (.unprocessable, r)

/-- Answer a request on rule sets, with the name in its path. -/
def answerRuleSets (F : Framework) (r : Registry) (request : Request) (name : String) :
    RuleSetEndpoint → Response × Registry
  | .overview => (showRoot r, r)
  | .list => (showRuleSets r, r)
  | .create => answerCreate F r request.body
  | .display => (withEngine r name (showRuleSet F 200 name), r)
  | .remove => answerRemove r name
  | .graph =>
    (F.withForm Form.graphFields Form.graph? (some request.parameters) (showGraph F r name), r)
  | .run => (F.withForm Form.runFields Form.run? request.body (answerRun F r name), r)
  | .runSeveral =>
    (F.withForm Form.runSeveralFields (fun values => (Form.runSeveral? values).bind F.runForms?)
      request.body (answerRunSeveral F r name), r)
  | .propagate =>
    (F.withForm Form.propagateFields Form.propagate? (some request.parameters)
      (answerPropagate r name), r)
  | .drill => (F.withForm Form.drillFields Form.drill? request.body (answerDrill F r name), r)

namespace Service

/-- Start with the settings in environment variables. The rule files of a directory are
loaded if one is named. -/
def start (parsers : Rules.Parsers) (environment : List (String × String)) (tree : FileTree) :
    Except StartError Service :=
  let settings := Settings.ofEnvironment environment
  match (Entries.get? directoryVariable environment).getD "" with
  | "" => .ok { registry := settings.map Registry.empty }
  | directory => do
    let settings ← settings.mapError .settings
    let r ← (Registry.ofDirectory parsers settings directory tree).outcome.1.mapError fun _ =>
      .notDirectory
    return { registry := .ok r }

/-- Answer a request on a place, with the name in its path. -/
def answer (F : Framework) (s : Service) (request : Request) (name : String) :
    Endpoint → Response × Service
  | .health => (.json 200 [("status", .str "healthy")], s)
  | .evaluate =>
    (F.withForm Form.evaluateFields Form.evaluate? request.body (answerEvaluate F), s)
  | .dependencies =>
    (F.withForm Form.dependenciesFields Form.dependencies? request.body answerDependencies, s)
  | .ruleSets e =>
    match s.registry with
    | .error _ => (.failure, s)
    | .ok r =>
      let (response, r) := answerRuleSets F r request name e
      (response, { registry := .ok r })

/-- Answer a request. -/
def handle (F : Framework) (s : Service) (request : Request) : Response × Service :=
  match F.dispatch declarations request.method request.path with
  | .ok (endpoint, name) => s.answer F request name endpoint
  | .error response => (response, s)

end Service

end Http

end RuleTree
