import RuleTree.Text.Split
/-!
# Paths

A path is a sequence of segments, written with dots between them. Splitting and
joining are inverse to each other as long as no segment has a dot in it.
-/

namespace RuleTree

/-- The way from a value to one inside it. -/
abbrev Path := List String

namespace Path

/-- The segment that stands for every child. -/
def wildcard : String := "*"

/-- The segments of a written path. -/
def ofText (text : String) : Path := (Text.split '.' text.toList).map String.ofList

/-- The written form of a path. -/
def text (path : Path) : String := ".".intercalate path

end Path

end RuleTree
