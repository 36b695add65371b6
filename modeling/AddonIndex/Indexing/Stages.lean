import AddonIndex.Balance
import AddonIndex.Indexing.Configs
import AddonIndex.Indexing.Environment
import AddonIndex.Indexing.Failure
import AddonIndex.Indexing.World

/-!
# The stages of the work on an addon

Extraction of the archives, conversion of binary configs, parsing, saving to the
reference cache, and cleanup. Each stage reports its start first and its finish
last, however it ends. Before each unit of work it is checked whether the addon
is cancelled.
-/

namespace AddonIndex.Indexing

/-- Whether the work on an addon goes on after a stage. -/
inductive StageStatus
  | completed
  /-- The addon is cancelled or has nothing to work on. -/
  | stopped
deriving DecidableEq, Inhabited, Repr

/-- The work on one addon: the addon, its cache, and what the run is given. -/
structure AddonWork where
  environment : Environment
  cache : ReferenceCache
  addon : Handle

namespace AddonWork

/-- Report the outcome of a tool and count it. The answer tells whether the tool
succeeded. -/
def reportTool (work : AddonWork) (action : Text) (input output : Path)
    (record : Tally → Bool → Tally) (result : Except ToolError ToolOutcome) : Run Bool := do
  let complain (detail : Text) : Run Bool := do
    count (record · false)
    error (some work.addon) ("Couldn't ".toList ++ action ++ [' '] ++ input.text) (some detail)
    return false
  match result with
  | .ok .success => do
      count (record · true)
      message work.addon ("Finished ".toList ++ action ++ " of ".toList ++ input.text ++
        " to ".toList ++ output.text)
      return true
  | .ok outcome => complain outcome.describe
  | .error e => complain e.fullMessage

/-- The log entry of a worker: what it does, and its files. -/
def workerBlock (what worker : Text) (files : List SizedFile) : Text :=
  what ++ " on thread ".toList ++ worker ++ " (".toList ++ Text.ofNat (totalSize files) ++
    " bytes): [\n".toList ++
    files.flatMap (fun file => '\t' :: file.path.text ++ ['\n']) ++ [']']

/-- Report the workers that were aborted. -/
def reportAborted (work : AddonWork) : List Text → Run Unit
  | [] => return ()
  | worker :: rest => do
      error (some work.addon) ("Worker thread '".toList ++ worker ++
        "' panicked while indexing ".toList ++ work.addon.name) none
      reportAborted work rest

/-- Do units of work on files with all workers. -/
def shareOut (work : AddonWork) (what : Text) (files : List Path)
    (doUnits : List SizedFile → Run Unit) : Run (Except RunFailure Unit) := do
  let sized ← lookAt fun tree => files.map fun path => { path, size := measure tree path }
  let pool := work.environment.pool
  let report ← pool.run work.environment.refusals (balance SizedFile.size pool.workers sized)
    fun worker bucket => do
      note (workerBlock what worker bucket)
      doUnits bucket
  match report with
  | .error refusal => return .error (.workerRefused refusal)
  | .ok report => do
      work.reportAborted report.aborted
      return .ok ()

/-- The status of an addon that has work left unless it is cancelled. -/
def status (work : AddonWork) : Run StageStatus := do
  if ← isCancelled work.addon then return .stopped else return .completed

/-- Where an archive is extracted to, below the directory for its addon. -/
def extractionDirectory (destination archive : Path) : Path :=
  destination.join (archive.fileStem?.getD archive.text)

/-- Extract archives one after another. -/
def extractEach (work : AddonWork) (destination : Path) : List SizedFile → Run Unit
  | [] => return ()
  | archive :: rest => do
      if ← isCancelled work.addon then return ()
      let directory := extractionDirectory destination archive.path
      Activity.modify fun world => { world with extracted := world.extracted ++ [directory] }
      let result ← callTool
        (work.environment.tools.extract archive.path directory
          work.environment.settings.extractTimeout)
      let _ ← work.reportTool "extract" archive.path directory Tally.countExtraction result
      unitDone work.addon
      extractEach work destination rest

/-- Extract the archives of the addon below the given directory. -/
def extract (work : AddonWork) (tempRoot : Path) : Run (Except RunFailure StageStatus) :=
  withStage work.addon .extraction do
    match ← lookAt (archiveContainer? work.addon.directory) with
    | .error cause => return .error (.addonDirectoryUnreadable work.addon.directory cause)
    | .ok none => do
        warning work.addon ("No '".toList ++ containerName ++ "' directory in ".toList ++
          work.addon.directory.text ++ ", skipping addon".toList) none
        return .ok .stopped
    | .ok (some container) =>
        match ← lookAt (archives container) with
        | .error cause => return .error (.addonDirectoryUnreadable container cause)
        | .ok files => do
            note (Text.ofNat files.length ++ " PBO files found in ".toList ++ container.text)
            beginWork work.addon files.length
            match ← work.shareOut "Extracting PBOs" files
                (work.extractEach (tempRoot.join work.addon.name)) with
            | .error failure => return .error failure
            | .ok () => return .ok (← work.status)

/-- The configs of extraction directories, or none if the addon is cancelled on
the way. -/
def findConfigs (work : AddonWork) : List Path → Run (Option ConfigFiles)
  | [] => return some { binaries := [], texts := [] }
  | directory :: rest => do
      if ← isCancelled work.addon then return none
      let found ← lookAt (configFiles directory)
      match ← findConfigs work rest with
      | none => return none
      | some others =>
          return some { binaries := found.binaries ++ others.binaries
                        texts := found.texts ++ others.texts }

/-- The text config that a binary config is converted to. -/
def convertedConfig (binary : Path) : Path := binary.withFileName Reference.textConfigName

/-- Note the text configs that need no conversion. -/
def noteTexts : List Path → Run Unit
  | [] => return ()
  | text :: rest => do
      note ("Found text config ".toList ++ text.text ++ ", no conversion needed".toList)
      noteTexts rest

/-- Keep a text config for parsing. -/
def keepConverted (text : Path) : Run Unit :=
  Activity.modify fun world => { world with converted := world.converted ++ [text] }

/-- Convert binary configs one after another. -/
def convertEach (work : AddonWork) : List SizedFile → Run Unit
  | [] => return ()
  | binary :: rest => do
      if ← isCancelled work.addon then return ()
      let text := convertedConfig binary.path
      let result ← callTool
        (work.environment.tools.convert binary.path text
          work.environment.settings.convertTimeout)
      if ← work.reportTool "convert" binary.path text Tally.countConversion result then
        keepConverted text
      unitDone work.addon
      convertEach work rest

/-- Convert the binary configs in the extraction directories. The answer holds
the text configs to parse, including those that were texts already. -/
def convert (work : AddonWork) : Run (Except RunFailure (StageStatus × List Path)) :=
  withStage work.addon .conversion do
    match ← work.findConfigs (← Activity.inspect World.extracted) with
    | none => return .ok (.stopped, [])
    | some found => do
        noteTexts found.texts
        beginWork work.addon found.binaries.length
        Activity.modify fun world => { world with converted := found.texts }
        match ← work.shareOut "De-binarizing configs" found.binaries work.convertEach with
        | .error failure => return .error failure
        | .ok () => do
            let configs ← Activity.inspect World.converted
            return .ok (← work.status, Path.sort configs)

/-- Parse configs one after another. -/
def parseEach (work : AddonWork) : List Path → Run StageStatus
  | [] => return .completed
  | config :: rest => do
      if ← isCancelled work.addon then return .stopped
      let result ← Activity.act fun world =>
        let effect := work.environment.reader config (config.parent?.getD config) world.tree
        (effect.result, world.cancelNamed effect.cancelled)
      match result with
      | .ok parsed => do
          count (·.countParse true)
          Activity.modify (·.updateProgress work.addon (·.addConfig parsed))
          message work.addon ("Parsed config ".toList ++ config.text)
      | .error e => do
          count (·.countParse false)
          error (some work.addon) ("Failed to parse config ".toList ++ config.text)
            (some e.fullMessage)
      unitDone work.addon
      parseEach work rest

/-- Parse text configs. One that cannot be parsed is reported and left out. -/
def parse (work : AddonWork) (configs : List Path) : Run StageStatus :=
  withStage work.addon .parsing do
    beginWork work.addon configs.length
    work.parseEach configs

/-- Set the entry of the reference cache. -/
def setReference (work : AddonWork) (entry : Path) : Run Unit :=
  Activity.modify (·.updateProgress work.addon (·.setReference entry))

/-- The files to save: those of each extraction directory with a name, with that
name. -/
def savePlan (directories : List Path) (tree : FileTree) :
    List (Text × Reference.SourceFile) :=
  directories.flatMap fun directory =>
    match directory.fileName? with
    | some name => (ReferenceCache.referenceFiles directory tree).map fun file => (name, file)
    | none => []

/-- Save files one after another. -/
def saveEach (work : AddonWork) (entry : Path) :
    List (Text × Reference.SourceFile) → Run StageStatus
  | [] => return .completed
  | (name, file) :: rest => do
      if ← isCancelled work.addon then return .stopped
      match ← perform (ReferenceCache.copy entry name file) with
      | .ok target => do
          count (·.countCopy true)
          message work.addon ("Copied ".toList ++ file.source.text ++ " to ".toList ++ target.text)
      | .error cause => do
          count (·.countCopy false)
          error (some work.addon) ("Couldn't copy ".toList ++ file.source.text ++ " into ".toList ++
            entry.text) (some cause.message)
      unitDone work.addon
      saveEach work entry rest

/-- Save scripts and headers to a new entry of the cache and mark it as
complete. -/
def save (work : AddonWork) : Run StageStatus :=
  withStage work.addon .saving do
    match ← perform (work.cache.prepare work.addon.name) with
    | .error cause => do
        error (some work.addon) ("Failed to create reference directory ".toList ++
          (work.cache.entry work.addon.name).text) (some cause.message)
        return .stopped
    | .ok entry => do
        work.setReference entry
        let directories ← Activity.inspect World.extracted
        let plan ← lookAt (savePlan directories)
        beginWork work.addon plan.length
        match ← work.saveEach entry plan with
        | .stopped => return .stopped
        | .completed => do
            match ← perform (ReferenceCache.markValid entry) with
            | .ok () => return .completed
            | .error cause => do
                error (some work.addon) ("Failed to mark reference directory ".toList ++
                  entry.text ++ " as valid".toList) (some cause.message)
                return .completed

/-- Delete extraction directories one after another. One that is gone already
counts as deleted. -/
def deleteEach (work : AddonWork) : List Path → Run Unit
  | [] => return ()
  | directory :: rest => do
      match ← perform (FileOp.removeTree directory) with
      | .error cause =>
          if cause = .notFound then note ("Deleted temp directory ".toList ++ directory.text)
          else
            warning work.addon ("Failed to delete temp directory ".toList ++ directory.text)
              (some cause.message)
      | .ok () => note ("Deleted temp directory ".toList ++ directory.text)
      deleteEach work rest

/-- Delete the extraction directories of the addon, and then its own directory
if nothing else is in it. -/
def cleanup (work : AddonWork) (tempRoot : Path) : Run Unit :=
  withStage work.addon .cleanup do
    work.deleteEach (← Activity.inspect World.extracted)
    let _ ← perform (FileOp.removeDirectory (tempRoot.join work.addon.name))
    return ()

/-- Read the addon from its entry of the reference cache, if that is valid. The
answer tells whether it is. -/
def readFromCache (work : AddonWork) : Run Bool := do
  match ← lookAt (work.cache.state work.addon.name) with
  | .missing => return false
  | .invalid => do
      note ("Reference cache for ".toList ++ work.addon.name ++
        " is marked invalid, indexing again".toList)
      return false
  | .valid => do
      let entry := work.cache.entry work.addon.name
      note ("Loading ".toList ++ work.addon.name ++ " from reference cache ".toList ++ entry.text)
      count Tally.countCacheHit
      work.setReference entry
      let configs ← lookAt (ReferenceCache.configFiles entry)
      let _ ← work.parse configs
      return true

/-- Extract, convert, parse and save, until a stage stops. -/
def index (work : AddonWork) (tempRoot : Path) : Run (Except RunFailure StageStatus) := do
  match ← work.extract tempRoot with
  | .error failure => return .error failure
  | .ok .stopped => return .ok .stopped
  | .ok .completed =>
      match ← work.convert with
      | .error failure => return .error failure
      | .ok (.stopped, _) => return .ok .stopped
      | .ok (.completed, configs) =>
          match ← work.parse configs with
          | .stopped => return .ok .stopped
          | .completed => return .ok (← work.save)

/-- Read the addon from the cache or, if there is no valid entry, index it. -/
def readOrIndex (work : AddonWork) (tempRoot : Path) : Run (Except RunFailure StageStatus) := do
  if ← work.readFromCache then return .ok .completed else work.index tempRoot

end AddonWork

end AddonIndex.Indexing
