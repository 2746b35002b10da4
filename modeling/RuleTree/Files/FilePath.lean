import RuleTree.Text.Split
/-!
# File paths

A file path is a sequence of names, absolute or relative to the current
directory. Empty names and dots for the same directory are left out; two dots are
kept, since what they mean depends on the directories. The suffix of a name starts
at its last dot, unless the name starts or ends there.
-/

namespace RuleTree

/-- A path of a file or a directory. -/
structure FilePath where
  /-- What the path starts with if it is absolute. -/
  root : String
  names : List String
  deriving DecidableEq, Inhabited

namespace FilePath

/-- The root of a path: two slashes are another root than one, three or more are one. -/
def rootOf : List Char → String
  | '/' :: '/' :: '/' :: _ => "/"
  | '/' :: '/' :: _ => "//"
  | '/' :: _ => "/"
  | _ => ""

/-- The path that a text writes. -/
def ofText (text : String) : FilePath :=
  let cs := text.toList
  { root := rootOf cs
    names := ((Text.split '/' cs).map String.ofList).filter fun name => name ≠ "" && name ≠ "." }

/-- The written form of a path. -/
def text (p : FilePath) : String :=
  if p.root = "" && p.names.isEmpty then "." else p.root ++ "/".intercalate p.names

/-- The path of an entry of a directory. -/
def entry (p : FilePath) (name : String) : FilePath := { p with names := p.names ++ [name] }

/-- The last name, empty if there is none. -/
def name (p : FilePath) : String := p.names.getLast?.getD ""

/-- The place of the dot that the suffix of a name starts at. -/
def suffixStart? (name : List Char) : Option Nat :=
  match (name.reverse.takeWhile (· ≠ '.')).length with
  | behind =>
    if behind = 0 || name.length ≤ behind + 1 then none else some (name.length - behind - 1)

/-- The suffix with its dot, empty if there is none. -/
def suffix (p : FilePath) : String :=
  match suffixStart? p.name.toList with
  | some n => String.ofList (p.name.toList.drop n)
  | none => ""

/-- The name without its suffix. -/
def stem (p : FilePath) : String :=
  match suffixStart? p.name.toList with
  | some n => String.ofList (p.name.toList.take n)
  | none => p.name

end FilePath

end RuleTree
