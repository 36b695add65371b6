import AddonIndex.FileTree.Resolve

/-!
# Operations that change a file tree

An operation looks at the tree and answers with the elementary changes that it
makes, in order, and with its result. Operations compose: a later one sees the
changes of an earlier one, and an error ends the sequence after the changes made
so far. Whoever stops an operation early leaves the tree after some prefix of
its changes.
-/

namespace AddonIndex

/-- An operation on a file tree: its changes, in order, and its result. -/
def FileOp (α : Type) := FileTree → List FileTree.Change × Except FileError α

namespace FileOp

variable {α β : Type}

/-- The tree after an operation, and its result. -/
def run (operation : FileOp α) (tree : FileTree) : FileTree × Except FileError α :=
  let (changes, result) := operation tree
  (tree.applyAll changes, result)

/-- An operation without changes. -/
protected def pure (a : α) : FileOp α := fun _ => ([], .ok a)

/-- Two operations in sequence. An error of the first one is the result. -/
protected def bind (first : FileOp α) (next : α → FileOp β) : FileOp β := fun tree =>
  match first tree with
  | (changes, .error e) => (changes, .error e)
  | (changes, .ok a) =>
      let (later, result) := next a (tree.applyAll changes)
      (changes ++ later, result)

instance : Monad FileOp where
  pure := FileOp.pure
  bind := FileOp.bind

/-- Look at the tree without changing it. -/
def inspect (look : FileTree → Except FileError α) : FileOp α := fun tree => ([], look tree)

/-- Make one elementary change. -/
def change (c : FileTree.Change) : FileOp Unit := fun _ => ([c], .ok ())

/-- Fail without a change. -/
def fail (e : FileError) : FileOp α := fun _ => ([], .error e)

/-- The result of an operation, which itself does not fail. -/
def attempt (operation : FileOp α) : FileOp (Except FileError α) := fun tree =>
  let (changes, result) := operation tree
  (changes, .ok result)

/-- Create one directory in an existing one. -/
def makeDirectory (path : Path) : FileOp Unit := do
  match ← inspect (·.resolve path) with
  | .dots _ _ => fail .alreadyExists
  | .name parent name _ =>
      match ← inspect fun tree => .ok (tree.entryAt? (parent ++ [name])) with
      | some _ => fail .alreadyExists
      | none => change (.makeDirectory (parent ++ [name]))

/-- Create the first directory of a list that can be created, then those before
it, up to the first of the list. A directory that is there already is left
alone. -/
def makeDirectoriesAlong : List Path → FileOp Unit
  | [] => FileOp.pure ()
  | path :: ancestors => do
      if path.text.isEmpty then return ()
      match ← attempt (makeDirectory path) with
      | .ok () => return ()
      | .error .notFound =>
          makeDirectoriesAlong ancestors
          match ← attempt (makeDirectory path) with
          | .ok () => return ()
          | .error e =>
              if ← inspect fun tree => .ok (tree.isDirectory path) then return () else fail e
      | .error e =>
          if ← inspect fun tree => .ok (tree.isDirectory path) then return () else fail e

/-- Create a directory and the missing ones on the way to it. -/
def makeDirectories (path : Path) : FileOp Unit := makeDirectoriesAlong path.ancestors

/-- Remove an empty directory. -/
def removeDirectory (path : Path) : FileOp Unit := do
  match ← inspect (·.resolve path) with
  | .dots _ last =>
      if last = ['.'] then fail .invalidArgument
      else if last = ['.', '.'] then fail .directoryNotEmpty
      else fail .busy
  | .name parent name _ =>
      match ← inspect fun tree => .ok (tree.entryAt? (parent ++ [name])) with
      | none => fail .notFound
      | some (.file _ _) => fail .notADirectory
      | some .directory =>
          let isEmpty ← inspect fun tree => .ok (tree.below (parent ++ [name])).isEmpty
          if isEmpty then change (.erase (parent ++ [name])) else fail .directoryNotEmpty

/-- Remove everything below a directory, each entry after those below it. -/
def removeContents (directory : Location) : FileOp Unit := fun tree =>
  ((tree.below directory).reverse.map fun item => .erase (directory ++ item.1), .ok ())

/-- Remove a directory with everything below it. -/
def removeTree (path : Path) : FileOp Unit := do
  match ← inspect (·.find path) with
  | (_, .file _ _) => fail .notADirectory
  | (place, .directory) =>
      removeContents place
      match ← attempt (removeDirectory path) with
      | .error .notFound => return ()
      | .error e => fail e
      | .ok () => return ()

/-- The location at which a file can be opened for writing, and whether a file
that is there is executable. A slash at the end of a path asks for a directory,
also where there is a file. -/
def writable (path : Path) (tree : FileTree) : Except FileError (Location × Bool) := do
  match ← tree.resolve path with
  | .dots _ _ => throw .isADirectory
  | .name parent name slash =>
      if slash then throw .isADirectory
      else
        match tree.entryAt? (parent ++ [name]) with
        | some .directory => throw .isADirectory
        | some (.file _ executable) => return (parent ++ [name], executable)
        | none => return (parent ++ [name], false)

/-- Write a file: it is emptied or created first, then filled. -/
def writeBytes (path : Path) (content : ByteArray) : FileOp Unit := do
  let (place, executable) ← inspect (writable path)
  change (.putFile place ByteArray.empty executable)
  change (.putFile place content executable)

/-- Write a text file. -/
def writeText (path : Path) (text : Text) : FileOp Unit := writeBytes path text.encode

/-- Copy a file. The target is emptied before the source is read. -/
def copyFile (source target : Path) : FileOp Unit := do
  match ← inspect (·.find source) with
  | (_, .directory) => fail .notARegularFile
  | (_, .file _ executable) =>
      let (place, _) ← inspect (writable target)
      change (.putFile place ByteArray.empty executable)
      let content ← inspect (·.readBytes source)
      change (.putFile place content executable)

/-- Remove a file. -/
def removeFile (path : Path) : FileOp Unit := do
  match ← inspect (·.find path) with
  | (_, .directory) => fail .isADirectory
  | (place, .file _ _) => change (.erase place)

/-- Remove what a path leads to, with everything below it. -/
def remove (path : Path) : FileOp Unit := do
  if ← inspect fun tree => .ok (tree.isDirectory path) then removeTree path else removeFile path

end FileOp

end AddonIndex
