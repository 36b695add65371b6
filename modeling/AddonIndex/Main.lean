import AddonIndex.CommandLine.Command
import AddonIndex.Tool.Script.Run
import Std.Time.Format

/-!
# The program

The files below the working directory are loaded, the command is carried out on
them, and what it changed is stored. A file counts as executable if it is a
script.
-/

namespace AddonIndex.Main

/-- The location that a path from the root leads to. -/
def locationOf (path : Text) : Location := (path.split (· == '/')).filter (· ≠ [])

/-- The path from the root to a location. -/
def pathOf (place : Location) : String := Text.toString ('/' :: Text.joinWith ['/'] place)

/-- The entries below a directory. -/
partial def load (place : Location) : IO (List (Location × Entry)) := do
  let directory ← IO.FS.realPath (pathOf place)
  let mut found := []
  for item in ← directory.readDir do
    let inside := place ++ [item.fileName.toList]
    if ← item.path.isDir then
      found := found ++ (inside, .directory) :: (← load inside)
    else
      let content ← IO.FS.readBinFile item.path
      found := found ++ [(inside, .file content (Script.interpreter? content).isSome)]
  return found

/-- Make the files what they are in a tree, given the tree that they were loaded
into. -/
def store (before after : FileTree) : IO Unit := do
  for (place, entry) in before.entries.reverse do
    if (after.entries.lookup place).isNone then
      if entry.isDirectory then IO.FS.removeDir (pathOf place)
      else IO.FS.removeFile (pathOf place)
  for (place, entry) in after.entries do
    let old := before.entries.lookup place
    match entry with
    | .directory => if old.isNone then IO.FS.createDir (pathOf place)
    | .file content _ =>
        let isSame :=
          match old with
          | some (.file previous _) => previous == content
          | _ => false
        if !isSame then IO.FS.writeBinFile (pathOf place) content

/-- The local time, as the stamps of a log show it. -/
def clock : IO Text := do
  let now ← Std.Time.Timestamp.now
  let rules ← Std.Time.Database.defaultGetLocalZoneRules
  return ((Std.Time.DateTime.ofTimestamp now rules).format "yyyy-MM-dd hh:mm a").toList

end AddonIndex.Main

open AddonIndex

/-- Carry out the command on the files below the working directory. -/
def main (arguments : List String) : IO UInt32 := do
  let workingDirectory := Main.locationOf (← IO.FS.realPath ".").toString.toList
  let ancestors := (List.range workingDirectory.length).map fun depth =>
    (workingDirectory.take (depth + 1), Entry.directory)
  let before : FileTree :=
    { entries := ancestors ++ (← Main.load workingDirectory), workingDirectory }
  let (after, report) :=
    CommandLine.run Script.launch (← Main.clock) (arguments.map String.toList) before
  Main.store before after
  (← IO.getStdout).putStr (Text.toString report.output)
  (← IO.getStderr).putStr (Text.toString report.errors)
  return UInt32.ofNat report.exitCode
