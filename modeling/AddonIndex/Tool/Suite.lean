import AddonIndex.FileTree.Operation
import AddonIndex.Tool.Archive
import AddonIndex.Tool.Program

/-!
# The tool suite

The extractor and the converter are programs below a directory. Before one of
them is run, the directory for its output is created. A scheduler with a single
thread cannot wait for a program, so nothing is run under one unless the caller
waits in another way.
-/

namespace AddonIndex

/-- The tools in a directory. -/
structure ToolSuite where
  directory : Path
  extractor : Path
  converter : Path
  /-- Whether the scheduler has a single thread. -/
  singleThreaded : Bool := false
deriving DecidableEq, Repr

namespace ToolSuite

/-- The tools in a directory, given the programs relative to it. -/
def ofDirectory (directory extractor converter : Path) (singleThreaded : Bool) : ToolSuite :=
  { directory
    extractor := directory.join extractor.text
    converter := directory.join converter.text
    singleThreaded }

/-- Check that the tools are there. -/
def check (suite : ToolSuite) (tree : FileTree) : Except ToolError Unit := do
  if suite.singleThreaded then throw .singleThreadedScheduler
  if !tree.isDirectory suite.directory then throw (.toolsDirectoryMissing suite.directory)
  if !tree.isFile suite.extractor then throw (.executableMissing suite.extractor)
  if !tree.isFile suite.converter then throw (.executableMissing suite.converter)

/-- Run a program once the directory for its output is there. -/
def callInto (launch : Launcher) (directory program : Path) (arguments : List Text)
    (limit : Duration) (tree : FileTree) : FileTree × Except ToolError ToolReport :=
  match (FileOp.makeDirectories directory).run tree with
  | (made, .ok ()) => launch.call program arguments limit made
  | (made, .error cause) => (made, .error (.outputDirectoryNotCreated directory cause.message))

/-- Extract an archive into a directory. -/
def extract (suite : ToolSuite) (launch : Launcher) (archive directory : Path) (limit : Duration)
    (tree : FileTree) : FileTree × Except ToolError ToolReport :=
  callInto launch directory suite.extractor ["-f".toList, directory.text, archive.text] limit tree

/-- Convert a binary config into a text config. -/
def convert (suite : ToolSuite) (launch : Launcher) (binary text : Path) (limit : Duration)
    (tree : FileTree) : FileTree × Except ToolError ToolReport :=
  let arguments := ["-txt".toList, "-dst".toList, text.text, binary.text]
  match text.parent? with
  | some directory => callInto launch directory suite.converter arguments limit tree
  | none => launch.call suite.converter arguments limit tree

/-- A call that waits in a way that needs several threads. -/
def blocking (suite : ToolSuite) {α : Type} (call : FileTree → FileTree × Except ToolError α)
    (tree : FileTree) : FileTree × Except ToolError α :=
  if suite.singleThreaded then (tree, .error .singleThreadedScheduler) else call tree

/-- What an indexing run sees of a call. -/
def effectOf : FileTree × Except ToolError ToolReport → ToolEffect
  | (tree, .ok report) => { tree, reply := .outcome report.outcome }
  | (tree, .error e) => { tree, reply := .error e }

/-- The tools of an indexing run. -/
def archiveTools (suite : ToolSuite) (launch : Launcher) : ArchiveTools :=
  { check := fun tree =>
      match suite.check tree with
      | .ok () => { tree, reply := .outcome .success }
      | .error e => { tree, reply := .error e }
    extract := fun archive directory limit tree =>
      effectOf (suite.blocking (suite.extract launch archive directory limit) tree)
    convert := fun binary text limit tree =>
      effectOf (suite.blocking (suite.convert launch binary text limit) tree) }

end ToolSuite

end AddonIndex
