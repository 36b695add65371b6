import AddonIndex.FileTree.Resolve
import AddonIndex.Reference.Cache

/-!
# Archives and configs in directories

Which files of an addon are archives, and which files of an extracted archive
are binary configs to convert and text configs to use as they are.
-/

namespace AddonIndex.Indexing

/-- The name of the directory that holds the archives of an addon. -/
def containerName : Text := "addons"

/-- The extension of archives. -/
def archiveExtension : Text := "pbo"

/-- The name of a binary config. -/
def binaryConfigName : Text := "config.bin"

/-- The directory that holds the archives of an addon: the first one listed with
that name, in any case. -/
def archiveContainer? (addon : Path) (tree : FileTree) : Except FileError (Option Path) := do
  let children ← tree.list addon
  let found := children.find? fun (name, entry) =>
    entry.isDirectory && Text.sameIgnoringCase name containerName
  return found.map fun (name, _) => addon.join name

/-- The archives in a directory, in path order. -/
def archives (container : Path) (tree : FileTree) : Except FileError (List Path) := do
  let children ← tree.list container
  let found := children.filter fun (name, entry) =>
    entry.isFile &&
      match (Path.mk name).extension? with
      | some extension => Text.sameIgnoringCase extension archiveExtension
      | none => false
  return Path.sort (found.map fun (name, _) => container.join name)

/-- Whether the file name of a path is the given one, in any case. -/
def isNamed (name : Text) (path : Path) : Bool :=
  match path.fileName? with
  | some fileName => Text.sameIgnoringCase fileName name
  | none => false

/-- The configs of an extracted archive. -/
structure ConfigFiles where
  /-- The binary configs, which are to be converted. -/
  binaries : List Path
  /-- The text configs in directories without a binary config. -/
  texts : List Path
deriving DecidableEq, Inhabited, Repr

/-- The configs below an extraction directory, in path order. A text config
beside a binary one is left out, since the conversion overwrites it. -/
def configFiles (directory : Path) (tree : FileTree) : ConfigFiles :=
  let files := tree.filesBelow directory
  let binaries := files.filter (isNamed binaryConfigName)
  let texts := files.filter fun file =>
    isNamed Reference.textConfigName file &&
      !binaries.any fun binary => binary.parent? == file.parent?
  { binaries := Path.sort binaries, texts := Path.sort texts }

/-- A file with its size; one that cannot be measured counts as empty. -/
def measure (tree : FileTree) (path : Path) : Nat :=
  match tree.size path with
  | .ok size => size
  | .error _ => 0

end AddonIndex.Indexing
