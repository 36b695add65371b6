import AddonIndex.FileTree.Basic

/-!
# From paths to entries

A path is followed part by part. Each part on the way must be an existing
directory, also one that a later double dot leaves again. The last name need
not exist; what that means is left to the operation.
-/

namespace AddonIndex

namespace FileTree

/-- What a path leads to. -/
inductive Place
  /-- A name in an existing directory; the flag tells whether a slash follows. -/
  | name (parent : Location) (name : Text) (slash : Bool)
  /-- A directory that the path does not name: the root, or one reached by dots. -/
  | dots (directory : Location) (last : Text)
deriving DecidableEq, Inhabited

/-- The longest name, in bytes. -/
def maxNameSize : Nat := 255

/-- The length in bytes from which a path is too long. -/
def maxPathSize : Nat := 4096

/-- Follow one part of a path to a directory. -/
def stepInto (tree : FileTree) (directory : Location) (part : Text) :
    Except FileError Location :=
  if part = ['.'] then .ok directory
  else if part = ['.', '.'] then .ok directory.dropLast
  else if maxNameSize < part.utf8Size then .error .nameTooLong
  else
    match tree.entryAt? (directory ++ [part]) with
    | none => .error .notFound
    | some .directory => .ok (directory ++ [part])
    | some (.file _ _) => .error .notADirectory

/-- Follow parts of a path from a directory. -/
def walk (tree : FileTree) (directory : Location) (parts : List Text) : Except FileError Location :=
  parts.foldlM (stepInto tree) directory

/-- Where the way along a path begins. -/
def start (tree : FileTree) (path : Path) : Location :=
  if path.isAbsolute then [] else tree.workingDirectory

/-- Follow a path up to its last part. -/
def resolve (tree : FileTree) (path : Path) : Except FileError Place :=
  if path.text = [] then .error .notFound
  else if path.text.contains '\x00' then .error .zeroByteInName
  else if maxPathSize ≤ path.text.utf8Size then .error .nameTooLong
  else
    match path.written.getLast? with
    | none => .ok (.dots (tree.start path) ['/'])
    | some last => do
        let directory ← tree.walk (tree.start path) path.written.dropLast
        if last = ['.'] then .ok (.dots directory last)
        else if last = ['.', '.'] then .ok (.dots directory.dropLast last)
        else if maxNameSize < Text.utf8Size last then .error .nameTooLong
        else .ok (.name directory last (path.text.getLast? == some '/'))

/-- The existing entry that a path leads to. -/
def find (tree : FileTree) (path : Path) : Except FileError (Location × Entry) := do
  match ← tree.resolve path with
  | .dots directory _ => return (directory, .directory)
  | .name parent name slash =>
      match tree.entryAt? (parent ++ [name]) with
      | none => throw .notFound
      | some .directory => return (parent ++ [name], .directory)
      | some entry => if slash then throw .notADirectory else return (parent ++ [name], entry)

/-- Whether a path leads to anything. -/
def pathExists (tree : FileTree) (path : Path) : Bool :=
  match tree.find path with
  | .ok _ => true
  | .error _ => false

/-- Whether a path leads to a directory. -/
def isDirectory (tree : FileTree) (path : Path) : Bool :=
  match tree.find path with
  | .ok (_, .directory) => true
  | _ => false

/-- Whether a path leads to a file. -/
def isFile (tree : FileTree) (path : Path) : Bool :=
  match tree.find path with
  | .ok (_, .file _ _) => true
  | _ => false

/-- The bytes of a file. -/
def readBytes (tree : FileTree) (path : Path) : Except FileError ByteArray := do
  match ← tree.find path with
  | (_, .file content _) => return content
  | (_, .directory) => throw .isADirectory

/-- The text of a file. -/
def readText (tree : FileTree) (path : Path) : Except FileError Text := do
  match Text.decode? (← tree.readBytes path) with
  | some text => return text
  | none => throw .invalidUtf8

/-- The size that is reported for a directory. -/
def directorySize : Nat := 4096

/-- The size of an entry in bytes. -/
def size (tree : FileTree) (path : Path) : Except FileError Nat := do
  match ← tree.find path with
  | (_, .file content _) => return content.size
  | (_, .directory) => return directorySize

/-- The names in a directory, in listing order, each with its entry. -/
def list (tree : FileTree) (path : Path) : Except FileError (List (Text × Entry)) := do
  match ← tree.find path with
  | (place, .directory) => return tree.children place
  | (_, .file _ _) => throw .notADirectory

/-- The files at or below a path, in listing order. -/
def filesBelow (tree : FileTree) (path : Path) : List Path :=
  match tree.find path with
  | .error _ => []
  | .ok (_, .file _ _) => [path]
  | .ok (place, .directory) =>
      (tree.below place).filterMap fun (relative, entry) =>
        if entry.isFile then some (path.descend relative) else none

/-- The files at or below a path whose names satisfy `wanted`, in path order. -/
def findFiles (tree : FileTree) (path : Path) (wanted : Text → Bool) : List Path :=
  Path.sort <| (tree.filesBelow path).filter fun file =>
    match file.fileName? with
    | some name => wanted name
    | none => false

end FileTree

end AddonIndex
