import AddonIndex.Path

/-!
# Which addons to index

The directories that hold addons, the root of the reference cache, and the names
of the addons to leave out or to restrict the run to.
-/

namespace AddonIndex

/-- The selection of addons for a run. -/
structure Selection where
  /-- Directories whose subdirectories with a leading `@` are addons. -/
  roots : List Text
  referenceDirectory : Text
  /-- Names of addons that are left out. -/
  denied : List Text
  /-- Names of the only addons that are taken; an empty list restricts nothing. -/
  allowed : List Text
deriving DecidableEq, Inhabited, Repr

namespace Selection

/-- What stands for the project directory in paths of a selection. -/
def projectPlaceholder : Text := "$PROJECT_DIR$"

/-- The selection with the project directory filled in, which is the working
directory if none is given. -/
def resolve (selection : Selection) (project : Option Text) : Selection :=
  let fill := Text.replace projectPlaceholder (project.getD ['.'])
  { selection with
    roots := selection.roots.map fill
    referenceDirectory := fill selection.referenceDirectory }

/-- The root of the reference cache. -/
def referenceRoot (selection : Selection) : Path := ⟨selection.referenceDirectory⟩

/-- Whether an addon is left out by name. -/
def isDenied (selection : Selection) (name : Text) : Bool := selection.denied.contains name

/-- Whether an addon is taken unless it is left out by name. -/
def isAllowed (selection : Selection) (name : Text) : Bool :=
  selection.allowed.isEmpty || selection.allowed.contains name

end Selection

end AddonIndex
