import AddonIndex.FileTree.Basic
import AddonIndex.Tool.Outcome

/-!
# The tools of an indexing run

The extractor and the converter as a run sees them: each call changes files and
has an outcome. While a tool runs, addons may be cancelled; a call may also abort
the worker that makes it.
-/

namespace AddonIndex

/-- What a call of a tool comes back with. -/
inductive ToolReply
  | outcome (outcome : ToolOutcome)
  | error (error : ToolError)
  /-- The activity that makes the call is aborted. -/
  | abort
deriving DecidableEq, Inhabited, Repr

/-- What a call of a tool does. -/
structure ToolEffect where
  tree : FileTree
  /-- The names of addons that are cancelled while the tool runs. -/
  cancelled : List Text := []
  reply : ToolReply
deriving Inhabited

/-- The tools of a run. -/
structure ArchiveTools where
  /-- Check that the tools can be run at all. -/
  check : FileTree → ToolEffect
  /-- Extract an archive into a directory. -/
  extract : (archive directory : Path) → (limit : Duration) → FileTree → ToolEffect
  /-- Convert a binary config into a text config. -/
  convert : (binary text : Path) → (limit : Duration) → FileTree → ToolEffect

end AddonIndex
