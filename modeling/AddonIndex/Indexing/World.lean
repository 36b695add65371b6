import AddonIndex.Addon.Catalog
import AddonIndex.Event.Channel
import AddonIndex.Event.RunLog
import AddonIndex.Activity
import AddonIndex.Tally
import AddonIndex.Tool.Archive

/-!
# The state of an indexing run

Everything that the activities of a run share, and the atomic steps on it: looking
at and changing the progress of an addon, writing to the log, submitting events,
changing files, counting.

A message is first written to the log and then submitted as an event; progress is
first counted and then submitted. These are separate steps, between which other
activities may take theirs.
-/

namespace AddonIndex.Indexing

/-- What the activities of a run share. -/
structure World where
  tree : FileTree := {}
  handles : List Handle := []
  /-- The progress of the addons, by the index of the handle. -/
  progress : List Progress := []
  channel : EventChannel := {}
  log : RunLog := {}
  /-- The path of the log, if it has a file. -/
  logPath : Option Path := none
  /-- The local time, as the stamps of the log show it. -/
  clock : Text := "2024-05-01 03:15 PM"
  /-- The directory for extracted archives of this run, once it is there. -/
  tempRoot : Option Path := none
  /-- The extraction directories of the current addon. -/
  extracted : List Path := []
  /-- The text configs of the current addon that are ready to be parsed. -/
  converted : List Path := []
  tally : Tally := {}
  catalog : Catalog := {}
deriving Inhabited

/-- An activity of a run. -/
abbrev Run := Activity World

/-- The progress of an addon. -/
def World.progressOf (world : World) (addon : Handle) : Progress :=
  world.progress[addon.index]?.getD {}

/-- Change the progress of an addon. -/
def World.updateProgress (world : World) (addon : Handle) (change : Progress → Progress) : World :=
  { world with progress := world.progress.modify addon.index change }

/-- Cancel all addons of the given names. -/
def World.cancelNamed (world : World) (names : List Text) : World :=
  (world.handles.filter fun addon => names.contains addon.name).foldl
    (fun world addon => world.updateProgress addon Progress.cancel) world

/-- Write a line to the log. -/
def note (line : Text) : Run Unit :=
  Activity.modify fun world => { world with log := world.log.write line }

/-- Submit an event. -/
def submit (event : Event) : Run Unit :=
  Activity.modify fun world => { world with channel := world.channel.submit event }

/-- Report a message about an addon. -/
def message (addon : Handle) (text : Text) : Run Unit := do
  note text
  submit (.message addon text)

/-- Report a warning about an addon. -/
def warning (addon : Handle) (text : Text) (detail : Option Text) : Run Unit := do
  Activity.modify fun world => { world with log := world.log.warn text detail }
  submit (.warning addon text detail)

/-- Report an error about an addon or about the whole run. -/
def error (addon : Option Handle) (text : Text) (detail : Option Text) : Run Unit := do
  Activity.modify fun world => { world with log := world.log.report text detail }
  submit (.error addon text detail)

/-- Begin a stage of work with the given number of units. -/
def beginWork (addon : Handle) (units : Nat) : Run Unit := do
  Activity.modify (·.updateProgress addon (·.beginWork units))
  submit (.totalProgress addon units)
  submit (.currentProgress addon 0)

/-- Count one finished unit of work. -/
def unitDone (addon : Handle) : Run Unit := do
  let current ← Activity.act fun world =>
    let after := world.updateProgress addon Progress.advance
    ((after.progressOf addon).current, after)
  submit (.currentProgress addon current)

/-- Do the work of a stage between its start and finish events. -/
def withStage {α : Type} (addon : Handle) (stage : Stage) (work : Run α) : Run α := do
  submit (.stageStarted addon stage)
  let result ← work
  submit (.stageFinished addon stage)
  return result

/-- Whether an addon is cancelled. -/
def isCancelled (addon : Handle) : Run Bool :=
  Activity.inspect fun world => (world.progressOf addon).cancelled

/-- Look at the files. -/
def lookAt {α : Type} (look : FileTree → α) : Run α := Activity.inspect fun world => look world.tree

/-- Carry out an operation on the files. -/
def perform {α : Type} (operation : FileOp α) : Run (Except FileError α) :=
  Activity.act fun world =>
    let (tree, result) := operation.run world.tree
    (result, { world with tree })

/-- Count something. -/
def count (change : Tally → Tally) : Run Unit :=
  Activity.modify fun world => { world with tally := change world.tally }

/-- Take the reply of a tool. -/
def takeReply : ToolReply → Run (Except ToolError ToolOutcome)
  | .outcome outcome => return .ok outcome
  | .error e => return .error e
  | .abort => Activity.abort

/-- Call a tool. -/
def callTool (call : FileTree → ToolEffect) : Run (Except ToolError ToolOutcome) := do
  let reply ← Activity.act fun world =>
    let effect := call world.tree
    (effect.reply, ({ world with tree := effect.tree }).cancelNamed effect.cancelled)
  takeReply reply

end AddonIndex.Indexing
