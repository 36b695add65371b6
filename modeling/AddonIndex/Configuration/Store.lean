import AddonIndex.Configuration.Document
import AddonIndex.FileTree.Operation

/-!
# The configuration directory

A directory holds a document for the selection and one for the settings. Without
a document for the selection there is none; without one for the settings they
have their defaults.
-/

namespace AddonIndex

/-- What goes wrong with a configuration directory. -/
inductive ConfigurationError
  | createDirectory (directory : Path) (cause : FileError)
  | readSelection (document : Path) (cause : FileError)
  | parseSelection (document : Path)
  | writeSelection (document : Path) (cause : FileError)
  | readSettings (document : Path) (cause : FileError)
  | parseSettings (document : Path)
  | writeSettings (document : Path) (cause : FileError)
deriving DecidableEq, Repr

namespace ConfigurationError

/-- What is reported. -/
def message : ConfigurationError → Text
  | createDirectory directory _ => "Failed to create config directory: ".toList ++ directory.text
  | readSelection document _ => "Failed to read addons config: ".toList ++ document.text
  | parseSelection document => "Failed to parse addons config: ".toList ++ document.text
  | writeSelection document _ => "Failed to write addons config: ".toList ++ document.text
  | readSettings document _ => "Failed to read settings: ".toList ++ document.text
  | parseSettings document => "Failed to parse settings: ".toList ++ document.text
  | writeSettings document _ => "Failed to write settings: ".toList ++ document.text

/-- The failure of the file system that is behind it. -/
def cause? : ConfigurationError → Option FileError
  | createDirectory _ cause | readSelection _ cause | writeSelection _ cause
  | readSettings _ cause | writeSettings _ cause => some cause
  | parseSelection _ | parseSettings _ => none

end ConfigurationError

/-- The directory that holds the configuration. -/
structure ConfigurationStore where
  directory : Path
deriving DecidableEq, Repr

namespace ConfigurationStore

/-- The name of the document for the selection. -/
def selectionFile : Text := "addons.yaml"

/-- The name of the document for the settings. -/
def settingsFile : Text := "settings.yaml"

/-- Where the selection is kept. -/
def selectionPath (store : ConfigurationStore) : Path := store.directory.join selectionFile

/-- Where the settings are kept. -/
def settingsPath (store : ConfigurationStore) : Path := store.directory.join settingsFile

/-- The result of an operation, with its failure put in other words. -/
def explain {α : Type} (words : FileError → ConfigurationError) (operation : FileOp α) :
    FileOp (Except ConfigurationError α) := do
  return (← operation.attempt).mapError words

/-- The store in a directory, which is created if there is nothing. -/
def openAt (directory : Path) : FileOp (Except ConfigurationError ConfigurationStore) := do
  if ← FileOp.inspect fun tree => .ok (tree.pathExists directory) then return .ok ⟨directory⟩
  else
    return (← explain (.createDirectory directory) (FileOp.makeDirectories directory)).map
      fun _ => ⟨directory⟩

/-- The selection, as it is written. -/
def storedSelection (store : ConfigurationStore) (tree : FileTree) :
    Except ConfigurationError (Option Selection) := do
  if !tree.pathExists store.selectionPath then return none
  let text ← (tree.readText store.selectionPath).mapError (.readSelection store.selectionPath)
  match Selection.parse? text with
  | some selection => return some selection
  | none => throw (.parseSelection store.selectionPath)

/-- The selection with the project directory filled in. -/
def loadSelection (store : ConfigurationStore) (project : Option Text) (tree : FileTree) :
    Except ConfigurationError (Option Selection) :=
  (store.storedSelection tree).map (·.map (·.resolve project))

/-- Keep a selection. -/
def saveSelection (store : ConfigurationStore) (selection : Selection) :
    FileOp (Except ConfigurationError Unit) :=
  explain (.writeSelection store.selectionPath)
    (FileOp.writeText store.selectionPath selection.write)

/-- The settings. -/
def loadSettings (store : ConfigurationStore) (tree : FileTree) :
    Except ConfigurationError Settings := do
  if !tree.pathExists store.settingsPath then return {}
  let text ← (tree.readText store.settingsPath).mapError (.readSettings store.settingsPath)
  match Settings.parse? text with
  | some settings => return settings
  | none => throw (.parseSettings store.settingsPath)

/-- Keep the settings. -/
def saveSettings (store : ConfigurationStore) (settings : Settings) :
    FileOp (Except ConfigurationError Unit) :=
  explain (.writeSettings store.settingsPath)
    (FileOp.writeText store.settingsPath settings.write)

end ConfigurationStore

end AddonIndex
