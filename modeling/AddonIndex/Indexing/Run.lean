import AddonIndex.Configuration.Selection
import AddonIndex.Indexing.Stages

/-!
# A whole indexing run

A run checks the reference root and the tools, discovers the addons, works on
each in turn, and publishes the result. If it has to be given up it publishes
nothing. In either case it reports its end and deletes its temporary directory.
-/

namespace AddonIndex.Indexing

/-- The name that begins the name of the directory for extracted archives. -/
def tempRootName : Text := "_addonIndexerTemp"

/-- Make sure that the reference root is a directory. -/
def ensureReferenceRoot (root : Path) : Run (Except RunFailure Unit) := do
  if ← lookAt (·.pathExists root) then
    if ← lookAt (·.isDirectory root) then return .ok ()
    else return .error (.referenceRootNotDirectory root)
  else
    match ← perform (FileOp.makeDirectories root) with
    | .ok () => return .ok ()
    | .error cause => return .error (.referenceRootNotCreated root cause)

/-- The addons in one root directory, in path order. -/
def addonsIn (selection : Selection) (root : Path) (children : List (Text × Entry)) : List Path :=
  let found := children.filter fun (name, entry) =>
    entry.isDirectory && name.head? == some '@' && !selection.isDenied name &&
      selection.isAllowed name
  Path.sort (found.map fun (name, _) => root.join name)

/-- The names of addons in a root directory that are left out by name. -/
def deniedIn (selection : Selection) (children : List (Text × Entry)) : List Text :=
  (children.filter fun (name, entry) =>
    entry.isDirectory && name.head? == some '@' && selection.isDenied name).map (·.1)

/-- Write lines to the log. -/
def noteAll : List Text → Run Unit
  | [] => return ()
  | line :: rest => do
      note line
      noteAll rest

/-- The addon directories of all roots. A root that is no directory is skipped. -/
def discover (selection : Selection) : List Text → Run (List Path)
  | [] => return []
  | root :: rest => do
      let root : Path := ⟨root⟩
      match ← lookAt (·.list root) with
      | .error _ => discover selection rest
      | .ok children => do
          note ("Found addon root ".toList ++ root.text)
          noteAll ((deniedIn selection children).map fun name =>
            "Addon excluded (blacklisted): ".toList ++ name)
          let found := addonsIn selection root children
          noteAll (found.map fun directory =>
            "Addon directory marked for indexing: ".toList ++ directory.text)
          let others ← discover selection rest
          return found ++ others

/-- The handles of discovered addons, whose progress begins. -/
def enroll (directories : List Path) : Run (List Handle) :=
  Activity.act fun world =>
    let handles := directories.mapIdx fun index directory => { index, directory }
    (handles, { world with handles, progress := directories.map fun _ => {} })

/-- The name of the directory for extracted archives with a number of underscores
after it. -/
def tempRootCandidate (root : Path) (underscores : Nat) : Path :=
  root.join (tempRootName ++ List.replicate underscores '_')

/-- The first of the candidates that is not there, beginning with the given number of
underscores and trying at most `bound` more. -/
def freeTempRoot (root : Path) (tree : FileTree) : (bound : Nat) → (underscores : Nat) → Path
  | 0, underscores => tempRootCandidate root underscores
  | bound + 1, underscores =>
      if tree.pathExists (tempRootCandidate root underscores) then
        freeTempRoot root tree bound (underscores + 1)
      else tempRootCandidate root underscores

/-- The path of the directory for extracted archives. Among one more candidates
than there are entries one is free. -/
def chooseTempRoot (root : Path) (tree : FileTree) : Path :=
  freeTempRoot root tree (tree.entries.length + 1) 0

/-- Create the directory for extracted archives. -/
def createTempRoot (root : Path) : Run (Except RunFailure Path) := do
  let path ← lookAt (chooseTempRoot root)
  match ← perform (FileOp.makeDirectory path) with
  | .ok () => return .ok path
  | .error cause => return .error (.tempRootNotCreated path cause)

/-- Report the finish of an addon. It is left out after a failure that ends the run. -/
def finishAddon (addon : Handle) : Except RunFailure StageStatus → Run (Except RunFailure Unit)
  | .error failure => return .error failure
  | .ok _ => do
      submit (.addonFinished addon)
      note ("INDEX FINISHED for addon ".toList ++ addon.name)
      return .ok ()

/-- Work on an addon between its start and finish events. -/
def indexAddon (work : AddonWork) (tempRoot : Path) : Run (Except RunFailure Unit) := do
  submit (.addonStarted work.addon)
  note ("INDEX STARTED for addon ".toList ++ work.addon.name)
  Activity.modify fun world => { world with extracted := [] }
  let result ← work.readOrIndex tempRoot
  work.cleanup tempRoot
  finishAddon work.addon result

/-- Work on addons one after another. One that is cancelled before its turn is
skipped without an event. -/
def indexEach (environment : Environment) (cache : ReferenceCache) (tempRoot : Path) :
    List Handle → Run (Except RunFailure Unit)
  | [] => return .ok ()
  | addon :: rest => do
      if ← isCancelled addon then indexEach environment cache tempRoot rest
      else
        match ← indexAddon { environment, cache, addon } tempRoot with
        | .error failure => return .error failure
        | .ok () => indexEach environment cache tempRoot rest

/-- The addons to publish: those that are not cancelled. -/
def collect : List Handle → Run (List Addon)
  | [] => return []
  | addon :: rest => do
      if ← isCancelled addon then
        count Tally.countCancelled
        note ("Addon cancelled: ".toList ++ addon.name)
        collect rest
      else
        count Tally.countIndexed
        note ("Addon finished: ".toList ++ addon.name)
        let progress ← Activity.inspect (·.progressOf addon)
        let others ← collect rest
        return Addon.ofHandle addon progress :: others

/-- Delete the directory for extracted archives after the last addon. What is left of it is
dealt with at the end of the run. -/
def deleteTempRoot (tempRoot : Path) : Run Unit := do
  match ← perform (FileOp.removeTree tempRoot) with
  | .ok () => note ("Deleted temp directory ".toList ++ tempRoot.text)
  | .error _ => return ()

/-- The addons to publish after the work on all of them, if that did not fail. -/
def gather (tempRoot : Path) (addons : List Handle) :
    Except RunFailure Unit → Run (Except RunFailure (List Addon))
  | .error failure => return .error failure
  | .ok () => do
      deleteTempRoot tempRoot
      return .ok (← collect addons)

/-- Work on addons in a new directory for extracted archives. The answer holds the addons to
publish. -/
def indexAll (environment : Environment) (root : Path) (addons : List Handle) :
    Run (Except RunFailure (List Addon)) := do
  match ← createTempRoot root with
  | .error failure => return .error failure
  | .ok tempRoot =>
  Activity.modify fun world => { world with tempRoot := some tempRoot }
  note ("Temp directory for addons extraction: ".toList ++ tempRoot.text)
  gather tempRoot addons (← indexEach environment ⟨root⟩ tempRoot addons)

/-- Everything up to the list of addons to publish. -/
def loadAddons (environment : Environment) (selection : Selection) :
    Run (Except RunFailure (List Addon)) := do
  match ← ensureReferenceRoot selection.referenceRoot with
  | .error failure => return .error failure
  | .ok () =>
  match ← callTool environment.tools.check with
  | .error e => return .error (.toolsUnavailable e)
  | .ok _ =>
  let addons ← enroll (← discover selection selection.roots)
  submit (.started selection addons)
  indexAll environment selection.referenceRoot addons

/-- Publish addons: replace the list, then announce it. -/
def publish (addons : List Addon) : Run Unit := do
  Activity.modify fun world => { world with catalog := world.catalog.replace addons }
  Activity.modify fun world => { world with catalog := world.catalog.announce addons.length }

/-- Report that the temporary directory of the run was not deleted. -/
def reportLeft (tempRoot : Path) : Except FileError Unit → Run Unit
  | .ok () => return ()
  | .error cause =>
      error none ("Failed to delete root temp directory ".toList ++ tempRoot.text)
        (some cause.message)

/-- Delete the temporary directory of the run if it is still there. -/
def removeTempRoot : Run Unit := do
  match ← Activity.inspect World.tempRoot with
  | none => return ()
  | some tempRoot =>
      if ← lookAt (·.pathExists tempRoot) then
        reportLeft tempRoot (← perform (FileOp.removeTree tempRoot))

/-- Put what was written to the log into its file, if that is still there. -/
def World.saveLog (world : World) : World :=
  match world.logPath with
  | none => world
  | some path =>
      if world.tree.isFile path then
        let content := Text.encode (LogPiece.render world.clock world.log.written)
        { world with tree := ((FileOp.writeBytes path content).run world.tree).1 }
      else world

/-- Deliver the remaining events and close the log. -/
def World.close (world : World) : World :=
  World.saveLog { world with channel := world.channel.close, log := world.log.close }

/-- Open the log of a run. -/
def openLog (path : Option Path) : Run Unit := do
  match ← perform (RunLog.openAt path) with
  | .ok log =>
      Activity.modify fun world =>
        { world with log, logPath := if log.isEnabled then path else none }
  | .error _ => return ()

/-- A run up to the list of addons to publish, or the failure that it is given up for. -/
def attempt (environment : Environment) (selection : Selection) (logPath : Option Path) :
    Run (Except RunFailure (List Addon)) := do
  openLog logPath
  note "[BEGIN LOAD ADDONS]"
  loadAddons environment selection

/-- Publish addons, or report the failure that the run is given up for. -/
def settle : Except RunFailure (List Addon) → Run Unit
  | .ok addons => publish addons
  | .error failure => error none "Couldn't complete indexing addons" (some failure.message)

/-- The end of a run with the given outcome. -/
def conclude (outcome : Except RunFailure (List Addon)) : Run Unit := do
  settle outcome
  submit .finished
  removeTempRoot
  note "[EXIT LOAD ADDONS]"

/-- A run up to the moment at which the channel and the log are closed. -/
def conduct (environment : Environment) (selection : Selection) (logPath : Option Path) :
    Run Unit := do
  conclude (← attempt environment selection logPath)

/-- A whole run. -/
def run (environment : Environment) (selection : Selection) (logPath : Option Path) :
    Run Unit := do
  conduct environment selection logPath
  Activity.modify World.close

/-- The world after a run. The channel and the log are closed also if the run was
aborted. -/
def World.afterRun (world : World) (environment : Environment) (selection : Selection)
    (logPath : Option Path) : World :=
  match (run environment selection logPath).run world with
  | (after, some ()) => after
  | (after, none) => after.close

end AddonIndex.Indexing
