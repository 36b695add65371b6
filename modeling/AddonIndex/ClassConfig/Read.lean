import AddonIndex.ClassConfig.Preprocess
import AddonIndex.ClassConfig.Scan

/-!
# Reading a config

Preprocessing, scanning and parsing in sequence: from a file to its classes and
assignments and to the macro definitions made on the way.
-/

namespace AddonIndex.ClassConfig

/-- A config as it was read. -/
structure ConfigFile where
  path : Path
  classes : List ConfigClass
  assignments : List Assignment
deriving Inhabited, Repr

/-- A config with the macro definitions made in it and in the files it includes. -/
structure ParsedConfig where
  file : ConfigFile
  definitions : OrderedMap Text
deriving Inhabited, Repr

/-- The classes and assignments of a preprocessed text. Failures are reported
for the given path. -/
def readText (path : Path) (text : Text) : Except ConfigError Body :=
  match scan text with
  | .error line => .error (.grammar path line .unterminatedString)
  | .ok lexemes =>
      match readBody lexemes with
      | .error failure => .error (.grammar path (failure.line lexemes) failure.cause)
      | .ok body => .ok body

/-- Read a config. Included files are looked for beside the including file and
in the given directory. -/
def readConfig (tree : FileTree) (file includeDirectory : Path) :
    Except ConfigError ParsedConfig := do
  let (lines, definitions) ← preprocess tree file includeDirectory
  let body ← readText file (endLines lines)
  return { file := { path := file, classes := body.classes, assignments := body.assignments }
           definitions := definitions.recorded }

/-- The class at a path of names between slashes. -/
def ConfigFile.findClass? (file : ConfigFile) (path : Text) : Option ConfigClass :=
  ClassConfig.findClass? file.classes path

end AddonIndex.ClassConfig
