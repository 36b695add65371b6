import AddonIndex.FileTree.Error
import AddonIndex.Path
import AddonIndex.Text.Blank
import AddonIndex.Tool.Duration

/-!
# What comes of running a tool

A tool that ran has succeeded, failed with an exit code, or been stopped when
its time was over. A tool that could not be run has an error with a cause.
-/

namespace AddonIndex

/-- The outcome of a tool that ran. -/
inductive ToolOutcome
  | success
  | failed (exitCode : Int) (complaint : Text)
  | timedOut (limit : Duration)
deriving DecidableEq, Inhabited, Repr

namespace ToolOutcome

/-- Whether the tool succeeded. -/
def isSuccess : ToolOutcome → Bool
  | success => true
  | _ => false

/-- A short description. What the tool printed on its error channel is part of
it unless it is blank. -/
def describe : ToolOutcome → Text
  | success => "completed"
  | failed exitCode complaint =>
      let shown := Text.trim complaint
      "exited with code ".toList ++ Text.ofInt exitCode ++
        (if shown.isEmpty then [] else ": ".toList ++ shown)
  | timedOut limit => "timed out after ".toList ++ limit.text

end ToolOutcome

/-- Why a tool could not be run. Causes of other kinds are kept as their text. -/
inductive ToolError
  | toolsDirectoryMissing (path : Path)
  | executableMissing (path : Path)
  | outputDirectoryNotCreated (path : Path) (cause : Text)
  | notStarted (program : Path) (cause : Text)
  /-- The scheduler that runs the tool has a single thread and cannot wait for it. -/
  | singleThreadedScheduler
deriving DecidableEq, Inhabited, Repr

namespace ToolError

/-- The message of an error, without its cause. -/
def message : ToolError → Text
  | toolsDirectoryMissing path => "Tools directory not found: ".toList ++ path.text
  | executableMissing path => "Tool executable not found: ".toList ++ path.text
  | outputDirectoryNotCreated path _ => "Failed to create output directory ".toList ++ path.text
  | notStarted program _ => "Failed to run ".toList ++ program.text
  | singleThreadedScheduler =>
      "Tool timeouts need a multi-thread tokio runtime; got a current-thread runtime handle"

/-- The text of the cause, if there is one. -/
def cause? : ToolError → Option Text
  | outputDirectoryNotCreated _ cause => some cause
  | notStarted _ cause => some cause
  | _ => none

/-- The message of an error with its cause. -/
def fullMessage (e : ToolError) : Text :=
  match e.cause? with
  | some cause => e.message ++ ": ".toList ++ cause
  | none => e.message

end ToolError

end AddonIndex
