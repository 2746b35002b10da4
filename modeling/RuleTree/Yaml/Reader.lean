import RuleTree.Yaml.Build
import RuleTree.Yaml.Document
/-!
# YAML

A reader of YAML 1.1 texts. A mapping whose keys are texts becomes a map, and a
repeated key keeps its first place and its last value. Under a merge key the
entries of other mappings are put in front. A mapping with a key that is no text
is not read.
-/

namespace RuleTree.Yaml

/-- Read a text with one document; without any the value is null. -/
def read (text : String) : Except Malformed Value := do
  match ← Document.ofTokens (.ofText text.toList) with
  | some d => d.toValue
  | none => return .null

end RuleTree.Yaml
