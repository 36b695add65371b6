import AddonIndex.FileTree.Error
import AddonIndex.Path
import AddonIndex.Sequence

/-!
# File trees

A file tree is a finite list of entries, each a directory or a file, with the
location of each. The root directory is always there. The order of the list is
the order in which directories list their entries; nothing but listing depends
on it.

Every modification is a sequence of elementary changes. An operation that stops
early leaves the tree after a prefix of its changes.
-/

namespace AddonIndex

/-- Where an entry is: the names on the way down from the root. -/
abbrev Location := List Text

/-- A directory, or a file with its bytes. -/
inductive Entry
  | directory
  | file (content : ByteArray) (executable : Bool)
deriving Inhabited

namespace Entry

/-- Whether an entry is a directory. -/
def isDirectory : Entry → Bool
  | directory => true
  | file _ _ => false

/-- Whether an entry is a file. -/
def isFile : Entry → Bool
  | directory => false
  | file _ _ => true

end Entry

/-- A file tree, and the directory from which relative paths start. -/
structure FileTree where
  entries : List (Location × Entry) := []
  workingDirectory : Location := []
deriving Inhabited

namespace FileTree

/-- The entry at a location. -/
def entryAt? (tree : FileTree) (place : Location) : Option Entry :=
  if place = [] then some .directory else tree.entries.lookup place

/-- The entries strictly below a location, with their locations relative to it. -/
def below (tree : FileTree) (place : Location) : List (Location × Entry) :=
  tree.entries.filterMap fun (location, entry) =>
    match dropLead? place location with
    | some (name :: rest) => some (name :: rest, entry)
    | _ => none

/-- The names in a directory, in listing order, each with its entry. -/
def children (tree : FileTree) (place : Location) : List (Text × Entry) :=
  (tree.below place).filterMap fun (relative, entry) =>
    match relative with
    | [name] => some (name, entry)
    | _ => none

/-- One elementary change: a new directory, a new or changed file, or the
removal of a file or an empty directory. -/
inductive Change
  | makeDirectory (place : Location)
  | putFile (place : Location) (content : ByteArray) (executable : Bool)
  | erase (place : Location)

/-- Put an entry at a location; a new one is listed last. -/
def put (tree : FileTree) (place : Location) (entry : Entry) : FileTree :=
  if (tree.entries.lookup place).isSome then
    { tree with entries := tree.entries.map fun item =>
        if item.1 = place then (place, entry) else item }
  else { tree with entries := tree.entries ++ [(place, entry)] }

/-- The tree after one change. -/
def apply (tree : FileTree) : Change → FileTree
  | .makeDirectory place => tree.put place .directory
  | .putFile place content executable => tree.put place (.file content executable)
  | .erase place => { tree with entries := tree.entries.filter fun item => item.1 ≠ place }

/-- The tree after a sequence of changes. -/
def applyAll (tree : FileTree) (changes : List Change) : FileTree :=
  changes.foldl apply tree

@[simp]
theorem applyAll_nil (tree : FileTree) : tree.applyAll [] = tree :=
  rfl

theorem applyAll_append (tree : FileTree) (first second : List Change) :
    tree.applyAll (first ++ second) = (tree.applyAll first).applyAll second :=
  List.foldl_append

end FileTree

end AddonIndex
