import RuleTree.Files.Tree
import RuleTree.Value.Basic
/-!
# Rule files

A rule tree is read from a JSON or a YAML file, told apart by the suffix. The file
holds UTF-8 text, and its top level is a map. How the two formats are read is left
to the parsers that are given.
-/

namespace RuleTree.Rules

/-- The format of a rule file. -/
inductive Format where
  | json
  | yaml
  deriving DecidableEq

/-- What reads the texts of rule files: the value that a text holds, or what is wrong with
it. Rule trees have texts as keys, so a text that gives other keys has no value. -/
structure Parsers where
  json : String → Except String Value
  yaml : String → Except String Value

/-- Why a rule file gives no rules. -/
inductive FileError where
  | notFound (path : String)
  | unknownFormat (path : String)
  | isDirectory
  | notUtf8
  /-- The parser does not read the text. -/
  | malformed (reason : String)
  /-- The top level is no map. -/
  | notMap (path : String)
  deriving DecidableEq

/-- The wording of an error that has one. -/
def FileError.message? : FileError → Option String
  | notFound path => some ("규칙 파일을 찾을 수 없습니다: " ++ path)
  | unknownFormat path => some ("지원하지 않는 규칙 파일 형식: " ++ path)
  | notMap path => some ("규칙 파일의 최상위는 딕셔너리여야 합니다: " ++ path)
  | _ => none

/-- The format of the file at a path. -/
def Format.ofPath? (p : FilePath) : Option Format :=
  Entries.get? p.suffix.toLower [(".json", json), (".yaml", yaml), (".yml", yaml)]

/-- A text with every line end as a newline. -/
def newlines : List Char → List Char
  | '\r' :: '\n' :: rest => '\n' :: newlines rest
  | '\r' :: rest => '\n' :: newlines rest
  | c :: rest => c :: newlines rest
  | [] => []

/-- The parser of a format. -/
def Parsers.parse (parsers : Parsers) : Format → String → Except String Value
  | .json => parsers.json
  | .yaml => parsers.yaml

/-- The rules in the file at a path. -/
def load (parsers : Parsers) (tree : FileTree) (p : FilePath) : Except FileError Value := do
  let some entry := tree.find? p | throw (.notFound p.text)
  let some format := Format.ofPath? p | throw (.unknownFormat p.text)
  let .file content := entry | throw .isDirectory
  let some text := String.fromUTF8? content | throw .notUtf8
  let rules ← (parsers.parse format (String.ofList (newlines text.toList))).mapError .malformed
  if rules.isMap then return rules else throw (.notMap p.text)

end RuleTree.Rules
