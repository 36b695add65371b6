import AddonIndex.Tool.Outcome
import AddonIndex.WorkerPool

/-!
# What ends a whole run

The conditions under which a run is given up, and their texts.
-/

namespace AddonIndex.Indexing

/-- Why a run is given up. -/
inductive RunFailure
  | referenceRootNotDirectory (path : Path)
  | referenceRootNotCreated (path : Path) (cause : FileError)
  | tempRootNotCreated (path : Path) (cause : FileError)
  | addonDirectoryUnreadable (path : Path) (cause : FileError)
  | toolsUnavailable (cause : ToolError)
  | workerRefused (refusal : WorkerRefused)
deriving DecidableEq, Repr

namespace RunFailure

/-- A text followed by the text of its cause. -/
def withCause (text : Text) (cause : FileError) : Text := text ++ ": ".toList ++ cause.message

/-- The text of a failure with its causes. -/
def message : RunFailure → Text
  | referenceRootNotDirectory path =>
      "Reference directory ".toList ++ path.text ++ " exists but is not a directory".toList
  | referenceRootNotCreated path cause =>
      withCause ("Failed to create reference directory ".toList ++ path.text) cause
  | tempRootNotCreated path cause =>
      withCause ("Failed to create temp directory ".toList ++ path.text) cause
  | addonDirectoryUnreadable path cause =>
      withCause ("Failed to read addon directory ".toList ++ path.text) cause
  | toolsUnavailable cause =>
      "Archive tools are not available: ".toList ++ cause.fullMessage
  | workerRefused refusal =>
      withCause ("Failed to spawn worker thread '".toList ++ refusal.worker ++ ['\'']) refusal.cause

end RunFailure

end AddonIndex.Indexing
