import AddonIndex.FileTree.Operation
import AddonIndex.Reference.Marker

/-!
# The reference cache

Below the root of the cache each addon has an entry, a directory of its name.
The entry holds a marker and, for each extracted archive, a directory with the
scripts and headers of that archive. An entry is trusted unless its marker says
that it is not complete.
-/

namespace AddonIndex

namespace Reference

/-- The name of the marker in an entry. -/
def markerName : Text := ".cacheproperties"

/-- The extensions of the files that are kept. -/
def extensions : List Text := ["sqf", "cpp", "h", "hh", "hpp"]

/-- The name of a text config. -/
def textConfigName : Text := "config.cpp"

/-- Whether a file of this path is kept: whether its extension is one of the
list, in any case. -/
def isReferenceFile (path : Path) : Bool :=
  match path.extension? with
  | some extension => extensions.any (Text.sameIgnoringCase extension)
  | none => false

/-- The state of an entry. -/
inductive EntryState
  | missing
  | valid
  | invalid
deriving DecidableEq, Inhabited, Repr

/-- A file to keep: where it is, and its path below the extraction directory. -/
structure SourceFile where
  source : Path
  relative : Text
deriving DecidableEq, Inhabited, Repr

end Reference

open Reference

/-- A reference cache, given by its root. -/
structure ReferenceCache where
  root : Path
deriving DecidableEq, Inhabited, Repr

namespace ReferenceCache

/-- The entry of an addon. -/
def entry (cache : ReferenceCache) (addon : Text) : Path := cache.root.join addon

/-- The state of the entry of an addon. An entry without a readable marker is
valid. -/
def state (cache : ReferenceCache) (addon : Text) (tree : FileTree) : EntryState :=
  let entry := cache.entry addon
  if !tree.isDirectory entry then .missing
  else
    match tree.readText (entry.join markerName) with
    | .error _ => .valid
    | .ok text => if validFlag? text = some false then .invalid else .valid

/-- Write the marker of an entry. -/
def writeMarker (entry : Path) (valid : Bool) : FileOp Unit :=
  FileOp.writeText (entry.join markerName) (markerText valid)

/-- Remove what an entry path leads to, if it leads to anything. -/
def clear (entry : Path) : FileOp Unit := fun tree =>
  if tree.pathExists entry then FileOp.removeTree entry tree else ([], .ok ())

/-- Replace the entry of an addon by an empty one that is marked as not
complete. -/
def prepare (cache : ReferenceCache) (addon : Text) : FileOp Path := do
  let entry := cache.entry addon
  clear entry
  FileOp.makeDirectories entry
  writeMarker entry false
  return entry

/-- Mark an entry as complete. -/
def markValid (entry : Path) : FileOp Unit := writeMarker entry true

/-- The text configs below a directory, in path order. -/
def configFiles (directory : Path) (tree : FileTree) : List Path :=
  tree.findFiles directory fun name => Text.sameIgnoringCase name textConfigName

/-- The files below an extraction directory that are kept, in path order. -/
def referenceFiles (directory : Path) (tree : FileTree) : List SourceFile :=
  (tree.findFiles directory fun name => isReferenceFile ⟨name⟩).filterMap fun source =>
    (source.relativeTo? directory).map fun relative => { source, relative := relative.text }

/-- Where a file is kept in an entry. -/
def target (entry : Path) (directoryName : Text) (file : SourceFile) : Path :=
  (entry.join directoryName).join file.relative

/-- Copy a file into an entry, below the name of its extraction directory. -/
def copy (entry : Path) (directoryName : Text) (file : SourceFile) : FileOp Path := do
  let target := target entry directoryName file
  match target.parent? with
  | some parent => FileOp.makeDirectories parent
  | none => pure ()
  FileOp.copyFile file.source target
  return target

end ReferenceCache

end AddonIndex
