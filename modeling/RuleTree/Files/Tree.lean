import RuleTree.Files.FilePath
/-!
# File trees

The files that are visible from the current directory. A directory is there if it
is listed or if something in it is. Two dots lead to the directory above; above
the current directory nothing but directories is known.
-/

namespace RuleTree

/-- What is at a place. -/
inductive FileEntry where
  | directory
  | file (content : ByteArray)

/-- The files and the directories below the current directory, by their names. -/
abbrev FileTree := List (List String × FileEntry)

namespace FileTree

/-- Whether names lead to something below a place. -/
def isBelow (place names : List String) : Bool :=
  place.isPrefixOf names && place.length < names.length

/-- What is listed or implied at a place. -/
def at? (tree : FileTree) (place : List String) : Option FileEntry :=
  match tree.find? fun (names, _) => names = place with
  | some (_, entry) => some entry
  | none =>
    if place.isEmpty || tree.any (fun (names, _) => isBelow place names) then some .directory
    else none

/-- Whether a place is a directory. -/
def isDirectory (tree : FileTree) (place : List String) : Bool :=
  match tree.at? place with
  | some .directory => true
  | _ => false

/-- Where names lead from a place, `none` standing for the directories above. -/
def resolve (tree : FileTree) : Option (List String) → List String → Option (Option (List String))
  | place, [] => some place
  | none, name :: rest => if name = ".." then resolve tree none rest else none
  | some place, name :: rest =>
    if !tree.isDirectory place then none
    else if name = ".." then
      resolve tree (if place.isEmpty then none else some place.dropLast) rest
    else if (tree.at? (place ++ [name])).isSome then resolve tree (some (place ++ [name])) rest
    else none

/-- What a path leads to. -/
def find? (tree : FileTree) (p : FilePath) : Option FileEntry := do
  let start := if p.root = "" then some [] else none
  match ← tree.resolve start p.names with
  | some place => tree.at? place
  | none => some .directory

/-- The names in a directory, in order. -/
def namesIn (tree : FileTree) (p : FilePath) : List String :=
  match tree.resolve (if p.root = "" then some [] else none) p.names with
  | some (some place) =>
    let names := tree.filterMap fun (names, _) =>
      if isBelow place names then names[place.length]? else none
    names.eraseDups.mergeSort fun a b => decide (a ≤ b)
  | _ => []

/-- Write a file. -/
def write (tree : FileTree) (p : FilePath) (content : ByteArray) : FileTree :=
  (p.names, .file content) :: tree.filter fun (names, _) => names ≠ p.names

end FileTree

end RuleTree
