import AddonIndex.CommandLine.Options
import AddonIndex.Configuration.Store
import AddonIndex.Indexing.Run
import AddonIndex.Tool.Suite

/-!
# The command

The configuration is loaded, all addons are indexed once, and what happens is
printed: the course of the run and a summary on the output channel, errors on
the error channel. An error of the run is one of its events; the command itself
fails only if the run cannot be begun.
-/

namespace AddonIndex.CommandLine

/-- The name and the version of the program. -/
def versionText : Text := "addon-indexer 0.3.0\n"

/-- What the command leaves to its caller: the exit code and what was printed. -/
structure Report where
  exitCode : Nat := 0
  output : Text := []
  errors : Text := []
deriving DecidableEq, Repr, Inhabited

namespace Report

/-- One report after another. -/
def append (first second : Report) : Report :=
  { exitCode := second.exitCode
    output := first.output ++ second.output
    errors := first.errors ++ second.errors }

instance : Append Report := ⟨append⟩

/-- The report of a command that fails, with the cause of the failure. -/
def failure (message : Text) (cause : Option Text) : Report :=
  { exitCode := 1
    errors :=
      "Error: ".toList ++ message ++
        (match cause with
          | some cause => "\n\nCaused by:\n    ".toList ++ cause
          | none => []) ++ ['\n'] }

end Report

/-- A line about an addon. -/
def addonLine (addon : Handle) (text : Text) : Text :=
  "[".toList ++ addon.name ++ "] ".toList ++ text ++ ['\n']

/-- The line of a detail. -/
def detailLine : Option Text → Text
  | some detail => "    ".toList ++ detail ++ ['\n']
  | none => []

/-- What is printed on the output channel about an event. -/
def outputOf : Event → Text
  | .started _ addons => "Indexing ".toList ++ Text.ofNat addons.length ++ " addons\n".toList
  | .addonStarted addon => addonLine addon "started"
  | .stageStarted addon stage => addonLine addon (stage.title ++ "...".toList)
  | .warning addon message detail =>
      addonLine addon ("warning: ".toList ++ message) ++ detailLine detail
  | .addonFinished addon => addonLine addon "finished"
  | .finished => "Indexing finished\n"
  | _ => []

/-- What is printed on the error channel about an event. -/
def errorsOf : Event → Text
  | .error addon message detail =>
      let name : Text := (addon.map Handle.name).getD "run"
      "[".toList ++ name ++ "] error: ".toList ++ message ++ ['\n'] ++ detailLine detail
  | _ => []

/-- Whether an event is a warning. -/
def isWarning : Event → Bool
  | .warning .. => true
  | _ => false

/-- Whether an event is an error. -/
def isError : Event → Bool
  | .error .. => true
  | _ => false

/-- The line about an indexed addon. -/
def summaryLine (addon : Addon) : Text :=
  addon.name ++ ": ".toList ++ Text.ofNat addon.configs.length ++ " config files, ".toList ++
    Text.ofNat addon.definitions.length ++ " macros".toList ++
    (match addon.reference with
      | some directory => " (".toList ++ directory.text ++ ")".toList
      | none => []) ++ ['\n']

/-- What is printed about a run and the addons that are indexed after it. -/
def reportOf (events : List Event) (addons : List Addon) : Report :=
  { output :=
      events.flatMap outputOf ++ ['\n'] ++ addons.flatMap summaryLine ++
        Text.ofNat addons.length ++ " addons indexed, ".toList ++
        Text.ofNat (events.countP isWarning) ++ " warnings, ".toList ++
        Text.ofNat (events.countP isError) ++ " errors\n".toList
    errors := events.flatMap errorsOf }

/-- Make sure that the directory for the logs of the program is there. -/
def prepareLogDirectory (directory : Path) : FileOp Unit := do
  if ← FileOp.inspect fun tree => .ok (tree.pathExists directory) then return ()
  else FileOp.makeDirectories directory

/-- Why a run cannot be begun. -/
inductive StartError
  | configuration (error : ConfigurationError)
  | logDirectory (directory : Path) (cause : FileError)
  | noSelection (directory : Path)
  | noToolsDirectory
deriving DecidableEq, Repr

/-- The report about a run that cannot be begun. -/
def StartError.report : StartError → Report
  | configuration e => .failure e.message (e.cause?.map FileError.message)
  | logDirectory directory cause =>
      .failure ("Failed to create log directory: ".toList ++ directory.text) (some cause.message)
  | noSelection directory =>
      .failure ("No ".toList ++ ConfigurationStore.selectionFile ++ " found in ".toList ++
        directory.text) none
  | noToolsDirectory =>
      .failure "No Arma 3 Tools directory configured (use --tools-dir or tools-directory in settings.yaml)"
        none

/-- What a run begins with. -/
structure Plan where
  settings : Settings
  selection : Selection
  toolsDirectory : Path

/-- Load everything that a run begins with. -/
def plan (options : Options) : FileOp (Except StartError Plan) := do
  match ← ConfigurationStore.openAt options.configDirectory with
  | .error e => return .error (.configuration e)
  | .ok store =>
  match ← FileOp.inspect fun tree => .ok (store.loadSettings tree) with
  | .error e => return .error (.configuration e)
  | .ok settings =>
  match ← (prepareLogDirectory settings.logDirectory).attempt with
  | .error cause => return .error (.logDirectory settings.logDirectory cause)
  | .ok () =>
  match ← FileOp.inspect fun tree =>
      .ok (store.loadSelection (options.projectDirectory.map Path.text) tree) with
  | .error e => return .error (.configuration e)
  | .ok none => return .error (.noSelection store.directory)
  | .ok (some selection) =>
  match options.toolsDirectory <|> settings.toolsDirectory with
  | none => return .error .noToolsDirectory
  | some toolsDirectory => return .ok { settings, selection, toolsDirectory }

/-- Index all addons once. -/
def index (launch : Launcher) (clock : Text) (options : Options) (tree : FileTree) :
    FileTree × Report :=
  match (plan options).run tree with
  | (after, .error cause) => (after, .failure cause.message none)
  | (after, .ok (.error cause)) => (after, cause.report)
  | (after, .ok (.ok plan)) =>
      let settings := plan.settings
      let suite := ToolSuite.ofDirectory plan.toolsDirectory settings.extractor settings.converter false
      let environment : Indexing.Environment := { tools := suite.archiveTools launch, settings }
      let world :=
        ({ tree := after, clock } : Indexing.World).afterRun environment plan.selection options.logFile
      (world.tree, reportOf world.channel.delivered world.catalog.addons)

/-- Carry out the command that the arguments ask for. -/
def run (launch : Launcher) (clock : Text) (arguments : List Text) (tree : FileTree) :
    FileTree × Report :=
  match readArguments arguments with
  | .error e => (tree, { exitCode := 2, errors := e.message })
  | .ok .help => (tree, { output := helpText })
  | .ok .version => (tree, { output := versionText })
  | .ok (.run options) => index launch clock options tree

end AddonIndex.CommandLine
