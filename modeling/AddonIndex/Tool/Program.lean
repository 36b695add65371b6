import AddonIndex.FileTree.Basic
import AddonIndex.Text.Lossy
import AddonIndex.Tool.Outcome

/-!
# Running programs

A program is given arguments and a time limit. It changes files, prints on two
channels, and ends with an exit code unless its time is over first.
-/

namespace AddonIndex

/-- How a program ended. -/
inductive ProgramEnd
  /-- It ended by itself. The exit code of a program that was killed is minus one. -/
  | exited (code : Int) (output complaint : ByteArray)
  /-- Its time was over. -/
  | stopped
deriving Inhabited

/-- How programs are run: the program, its arguments and the time limit. -/
abbrev Launcher :=
  (program : Path) → (arguments : List Text) → (limit : Duration) → FileTree →
    FileTree × Except FileError ProgramEnd

/-- The outcome of a tool, with what it printed on its two channels. -/
structure ToolReport where
  outcome : ToolOutcome
  output : ByteArray := ByteArray.empty
  complaint : ByteArray := ByteArray.empty

/-- What is reported about a program that was run with a time limit. -/
def ToolReport.ofEnd (limit : Duration) : ProgramEnd → ToolReport
  | .stopped => { outcome := .timedOut limit }
  | .exited code output complaint =>
      { outcome := if code = 0 then .success else .failed code (Text.decodeLossy complaint)
        output, complaint }

/-- Run a program as a tool. -/
def Launcher.call (launch : Launcher) (program : Path) (arguments : List Text) (limit : Duration)
    (tree : FileTree) : FileTree × Except ToolError ToolReport :=
  match launch program arguments limit tree with
  | (after, .ok ending) => (after, .ok (.ofEnd limit ending))
  | (after, .error cause) => (after, .error (.notStarted program cause.message))

end AddonIndex
