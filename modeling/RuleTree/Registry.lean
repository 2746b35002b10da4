import RuleTree.Engine
/-!
# Registries

A registry keeps engines by name. Registering under a name that is taken needs the
leave to replace the engine there. A registry with a directory loads the rule
files in it, each under its name without the suffix; a file that gives no engine
is reported and passed over.
-/

namespace RuleTree

/-- Why rules are not registered. -/
inductive RegistrationError where
  | nameTaken (name : String)
  | rules (e : EvalError)
  deriving DecidableEq

/-- The wording of an error that has one. -/
def RegistrationError.message? : RegistrationError → Option String
  | nameTaken name => some ("규칙 묶음 '" ++ name ++ "'이(가) 이미 등록되어 있습니다")
  | rules e => e.message?

/-- The directory of a registry is a file. -/
structure NotDirectory where
  deriving DecidableEq

/-- Engines by name. -/
structure Registry where
  engines : List (String × Engine)
  directory : Option FilePath
  /-- The settings of new engines. -/
  settings : Settings

namespace Registry

/-- A registry without engines. -/
def empty (settings : Settings) : Registry :=
  { engines := [], directory := none, settings }

/-- The engine under a name. -/
def engine? (r : Registry) (name : String) : Option Engine := Entries.get? name r.engines

/-- Whether a name is taken. -/
def contains (r : Registry) (name : String) : Bool := (r.engine? name).isSome

/-- Put an engine under a name. -/
def put (r : Registry) (name : String) (e : Engine) : Registry :=
  { r with engines := Entries.put name e r.engines }

/-- Remove the engine under a name. -/
def remove (r : Registry) (name : String) : Registry :=
  { r with engines := Entries.erase name r.engines }

/-- The number of engines. -/
def size (r : Registry) : Nat := r.engines.length

/-- The names in the order of their characters. -/
def names (r : Registry) : List String :=
  (Entries.keys r.engines).mergeSort fun a b => decide (a ≤ b)

/-- A short description. -/
def summary (r : Registry) : String :=
  "RuleSetRegistry(" ++ toString r.size ++ " rule sets)"

/-! ## Registration -/

/-- Put an engine under a name and report it. -/
def add (r : Registry) (name : String) (e : Engine) : StateM (List LogRecord) Registry := do
  modify (· ++ [⟨.info,
    "규칙 묶음 등록: " ++ name ++ " (규칙 " ++ toString e.rulePaths.length ++ "개)", none⟩])
  return r.put name e

/-- Make an engine and put it under a name. -/
def register (r : Registry) (name : String) (rules : Value) (replace : Bool) :
    Logged RegistrationError (Engine × Registry) := do
  if r.contains name && !replace then throw (.nameTaken name)
  let e ← Logged.silent ((Engine.ofRules rules r.settings).mapError .rules)
  return (e, ← r.add name e)

/-! ## Directories -/

/-- The engine of a rule file. -/
def engineOfFile (parsers : Rules.Parsers) (r : Registry) (tree : FileTree) (file : FilePath) :
    Except LoadError Engine := do
  let rules ← (Rules.load parsers tree file).mapError .file
  (Engine.ofRules rules r.settings).mapError .rules

/-- Load a rule file, or report why that fails. Other files are passed over. -/
def loadFile (parsers : Rules.Parsers) (tree : FileTree) (r : Registry) (file : FilePath) :
    StateM (List LogRecord) Registry :=
  if (Rules.Format.ofPath? file).isNone then return r
  else match r.engineOfFile parsers tree file with
  | .ok e => r.add file.stem e
  | .error failure => do
    modify (· ++ [⟨.warning, "규칙 파일 로드 실패 " ++ file.text ++ ": ", some failure⟩])
    return r

/-- Load the rule files in the directory, in the order of their names. A directory that
is not there has none. -/
def loadDirectory (parsers : Rules.Parsers) (r : Registry) (tree : FileTree) :
    Logged NotDirectory Registry := do
  let some directory := r.directory | return r
  match tree.find? directory with
  | none => return r
  | some (.file _) => throw {}
  | some .directory =>
    ((tree.namesIn directory).map directory.entry).foldlM
      (fun r file => loadFile parsers tree r file) r

/-- A registry with the rule files of a directory, if one is given. -/
def ofDirectory (parsers : Rules.Parsers) (settings : Settings) (directory : String)
    (tree : FileTree) : Logged NotDirectory Registry :=
  let r := empty settings
  if directory = "" then return r
  else { r with directory := some (.ofText directory) }.loadDirectory parsers tree

end Registry

end RuleTree
