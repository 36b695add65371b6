import AddonIndex.Addon.Handle
import AddonIndex.Configuration.Selection

/-!
# Events of a run

What a run reports to its observer.
-/

namespace AddonIndex

/-- A stage in the work on an addon. -/
inductive Stage
  | extraction
  | conversion
  | parsing
  | saving
  | cleanup
deriving DecidableEq, Inhabited, Repr

/-- The title of a stage. -/
def Stage.title : Stage → Text
  | extraction => "Extract PBOs"
  | conversion => "De-binarize configs"
  | parsing => "Parse configs"
  | saving => "Save references"
  | cleanup => "Cleanup"

/-- An event of a run. An error without an addon ends the whole run. -/
inductive Event
  | started (selection : Selection) (addons : List Handle)
  | addonStarted (addon : Handle)
  | stageStarted (addon : Handle) (stage : Stage)
  | stageFinished (addon : Handle) (stage : Stage)
  | message (addon : Handle) (message : Text)
  | warning (addon : Handle) (message : Text) (detail : Option Text)
  | error (addon : Option Handle) (message : Text) (detail : Option Text)
  | totalProgress (addon : Handle) (units : Nat)
  | currentProgress (addon : Handle) (units : Nat)
  | addonFinished (addon : Handle)
  | finished
deriving DecidableEq, Inhabited, Repr

/-- The addon that an event is about, if there is one. -/
def Event.addon? : Event → Option Handle
  | started _ _ => none
  | addonStarted addon => some addon
  | stageStarted addon _ => some addon
  | stageFinished addon _ => some addon
  | message addon _ => some addon
  | warning addon _ _ => some addon
  | error addon _ _ => addon
  | totalProgress addon _ => some addon
  | currentProgress addon _ => some addon
  | addonFinished addon => some addon
  | finished => none

end AddonIndex
