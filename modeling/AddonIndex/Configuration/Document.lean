import AddonIndex.Configuration.Selection
import AddonIndex.Configuration.Settings
import AddonIndex.Yaml.Read
import AddonIndex.Yaml.Record
import AddonIndex.Yaml.Write

/-!
# Configuration documents

A selection and the settings are each kept in a document with one field for each
part. All parts but the reference directory can be left out of a document; they
have defaults then. All parts are written.
-/

namespace AddonIndex

open Yaml

namespace Selection

/-- The names of the fields, in the order in which they are written. -/
def fieldNames : List Text :=
  ["roots".toList, "reference-dir".toList, "blacklist".toList, "whitelist".toList]

/-- The selection that a document describes. -/
def ofNode? (node : Node) : Option Selection := do
  let record ← node.record? fieldNames
  return {
    roots := ← record.field "roots" Node.texts? []
    referenceDirectory := ← record.required "reference-dir" Node.text?
    denied := ← record.field "blacklist" Node.texts? []
    allowed := ← record.field "whitelist" Node.texts? [] }

/-- The selection that is written in a text. -/
def parse? (text : Text) : Option Selection := (Yaml.read? text).bind ofNode?

/-- The text of a selection. -/
def write (selection : Selection) : Text :=
  "roots:".toList ++ writeTexts selection.roots ++
    "reference-dir: ".toList ++ writeText selection.referenceDirectory ++
    "blacklist:".toList ++ writeTexts selection.denied ++
    "whitelist:".toList ++ writeTexts selection.allowed

end Selection

namespace Settings

/-- The names of the fields, in the order in which they are written. -/
def fieldNames : List Text :=
  ["tools-directory".toList, "extractor".toList, "converter".toList,
    "extract-timeout-secs".toList, "convert-timeout-secs".toList, "worker-threads".toList,
    "log-directory".toList, "debug-mode".toList]

/-- The numbers in the settings are below this limit. -/
def numberLimit : Nat := Nat.pow 2 64

/-- The settings that a document describes. -/
def ofNode? (node : Node) : Option Settings := do
  let record ← node.record? fieldNames
  let path (node : Node) : Option Path := node.text?.map Path.mk
  let number := Node.natural? numberLimit
  let standard : Settings := {}
  return {
    toolsDirectory :=
      ← record.field "tools-directory" (fun node => node.optionalText?.map (·.map Path.mk))
        standard.toolsDirectory
    extractor := ← record.field "extractor" path standard.extractor
    converter := ← record.field "converter" path standard.converter
    extractTimeoutSeconds :=
      ← record.field "extract-timeout-secs" number standard.extractTimeoutSeconds
    convertTimeoutSeconds :=
      ← record.field "convert-timeout-secs" number standard.convertTimeoutSeconds
    workerThreads := ← record.field "worker-threads" number standard.workerThreads
    logDirectory := ← record.field "log-directory" path standard.logDirectory
    debugMode := ← record.field "debug-mode" Node.truthValue? standard.debugMode }

/-- The settings that are written in a text. -/
def parse? (text : Text) : Option Settings := (Yaml.read? text).bind ofNode?

/-- The text of the settings. -/
def write (settings : Settings) : Text :=
  let number (name : Text) (value : Nat) : Text := name ++ ": ".toList ++ Text.ofNat value ++ ['\n']
  let path (name : Text) (value : Path) : Text := name ++ ": ".toList ++ writeText value.text
  (match settings.toolsDirectory with
    | some directory => path "tools-directory" directory
    | none => "tools-directory: null\n".toList) ++
    path "extractor" settings.extractor ++
    path "converter" settings.converter ++
    number "extract-timeout-secs" settings.extractTimeoutSeconds ++
    number "convert-timeout-secs" settings.convertTimeoutSeconds ++
    number "worker-threads" settings.workerThreads ++
    path "log-directory" settings.logDirectory ++
    (if settings.debugMode then "debug-mode: true\n" else "debug-mode: false\n").toList

end Settings

end AddonIndex
