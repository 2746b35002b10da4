import RuleTree.Rules.File
import RuleTree.Json.Reader
import RuleTree.Value.Numbered
import RuleTree.Yaml.Reader
/-!
# Parsers for rule files

The parsers that the program reads rule files with, out of the readers for JSON and for
YAML. What is wrong with a text is told by a word.
-/

namespace RuleTree

/-- The word for what is wrong with a YAML text. -/
def Yaml.Malformed.word : Yaml.Malformed → String
  | document => "document"
  | number => "number"
  | overflow => "overflow"
  | emptyNumber => "empty number"
  | truthWord => "truth word"
  | dateForm => "date form"
  | dateMapping => "date mapping"
  | key => "key"

/-- The readers for JSON and YAML. A JSON text has its containers numbered once it is read. -/
def Rules.Parsers.standard : Parsers :=
  { json := fun text => ((Json.read text).map fun v => (v.numbered Ident.loaded 0).1).mapError
      fun _ => "text"
    yaml := fun text => (Yaml.read text).mapError Yaml.Malformed.word }

end RuleTree
