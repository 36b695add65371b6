import AddonIndex.FileTree.Operation

/-!
# The log of a run

A plain text with one stamped line for each entry: the local time, a dash, the
message. Lines are collected and written to the file together: once the messages
since the last time come to a thousand bytes, counting one for each line end,
when the next piece does not fit beside those collected, and at the end.

The time is not known here. A log is a sequence of pieces, some of which stand
for the time; all of these have the same size.
-/

namespace AddonIndex

/-- A piece of a log. -/
inductive LogPiece
  | stamp
  | text (text : Text)
deriving DecidableEq, Inhabited, Repr

namespace LogPiece

/-- The number of bytes of a stamp, such as `2024-05-01 03:15 PM`. -/
def stampSize : Nat := 19

/-- The number of bytes of a piece. -/
def size : LogPiece → Nat
  | stamp => stampSize
  | text t => Text.utf8Size t

/-- The number of bytes of pieces. -/
def totalSize : List LogPiece → Nat
  | [] => 0
  | piece :: rest => piece.size + totalSize rest

/-- The pieces as one text, given how stamps are shown. -/
def render (shownStamp : Text) (pieces : List LogPiece) : Text :=
  pieces.flatMap fun
    | stamp => shownStamp
    | text t => t

end LogPiece

/-- A writer of a log. It passes on the pieces it is given, but may keep some of them back until it is
flushed. -/
class LogWriter (Writer : Type) where
  /-- Give it a piece. -/
  give : Writer → LogPiece → Writer
  /-- Make it pass on everything. -/
  flush : Writer → Writer

/-- The writer of a log file: what has been written to the file and what is collected. -/
structure FileWriter where
  written : List LogPiece := []
  collected : List LogPiece := []
deriving DecidableEq, Inhabited, Repr

namespace FileWriter

/-- How many bytes are collected at most. -/
def capacity : Nat := 8192

/-- Write everything that is collected. -/
def flush (writer : FileWriter) : FileWriter :=
  { written := writer.written ++ writer.collected, collected := [] }

/-- The number of bytes that are collected. -/
def collectedSize (writer : FileWriter) : Nat := LogPiece.totalSize writer.collected

/-- Collect a piece. It makes the pieces collected be written first if it does not fit beside them. A piece
as large as the whole space is written at once after them. -/
def collect (writer : FileWriter) (piece : LogPiece) : FileWriter :=
  if capacity ≤ piece.size then { written := writer.written ++ writer.collected ++ [piece] }
  else
    let roomy := if capacity < writer.collectedSize + piece.size then writer.flush else writer
    { roomy with collected := roomy.collected ++ [piece] }

instance : LogWriter FileWriter := ⟨collect, flush⟩

end FileWriter

/-- An open log: its writer, and the bytes of messages since it was flushed. -/
structure LogSink (Writer : Type) where
  writer : Writer
  pending : Nat := 0
deriving DecidableEq, Inhabited, Repr

variable {Writer : Type} [LogWriter Writer]

namespace LogSink

/-- The bytes of messages from which the writer is flushed. -/
def flushThreshold : Nat := 1000

/-- The pieces of a line. -/
def linePieces (message : Text) : List LogPiece :=
  [.stamp, .text " - ".toList, .text message, .text ['\n']]

/-- Add a line. -/
def append (sink : LogSink Writer) (message : Text) : LogSink Writer :=
  let writer := (linePieces message).foldl LogWriter.give sink.writer
  let pending := sink.pending + Text.utf8Size message + 1
  if flushThreshold ≤ pending then { writer := LogWriter.flush writer } else { writer, pending }

end LogSink

/-- A log with a writer. It is disabled if it was closed or never opened. -/
structure BufferedLog (Writer : Type) where
  sink : Option (LogSink Writer) := none
  /-- The writer as it is left when the log is closed. -/
  closed : Option Writer := none
deriving DecidableEq, Inhabited, Repr

namespace BufferedLog

/-- A log that is opened with a writer. -/
def openOn (writer : Writer) : BufferedLog Writer := { sink := some { writer } }

/-- Whether lines reach the writer. -/
def isEnabled (log : BufferedLog Writer) : Bool := log.sink.isSome

/-- The writer of a log that was opened. -/
def writer? (log : BufferedLog Writer) : Option Writer :=
  match log.sink with
  | some sink => some sink.writer
  | none => log.closed

/-- Add lines one after another. -/
def appendAll (log : BufferedLog Writer) (messages : List Text) : BufferedLog Writer :=
  { log with sink := log.sink.map fun sink => messages.foldl LogSink.append sink }

/-- Add a plain line. -/
def write (log : BufferedLog Writer) (message : Text) : BufferedLog Writer := log.appendAll [message]

/-- Add a warning, with its detail on a line of its own. -/
def warn (log : BufferedLog Writer) (message : Text) (detail : Option Text) : BufferedLog Writer :=
  log.appendAll (("[WARNING] ".toList ++ message) :: detail.toList)

/-- Add an error, with its detail on a line of its own. -/
def report (log : BufferedLog Writer) (message : Text) (detail : Option Text) : BufferedLog Writer :=
  log.appendAll (("[ERROR] ".toList ++ message) :: detail.toList)

/-- Flush the writer and close the log. -/
def close (log : BufferedLog Writer) : BufferedLog Writer :=
  match log.sink with
  | some sink => { sink := none, closed := some (LogWriter.flush sink.writer) }
  | none => log

end BufferedLog

/-- The log of a run, which is written to a file. -/
abbrev RunLog := BufferedLog FileWriter

namespace RunLog

/-- What the file holds. -/
def written (log : RunLog) : List LogPiece := (log.writer?.map FileWriter.written).getD []

/-- Create or empty the file of a log. The log is disabled if there is no path
or the file cannot be written. -/
def openAt (path : Option Path) : FileOp RunLog := fun tree =>
  match path with
  | none => ([], .ok {})
  | some path =>
      match FileOp.writeBytes path ByteArray.empty tree with
      | (changes, .ok ()) => (changes, .ok (BufferedLog.openOn {}))
      | (changes, .error _) => (changes, .ok {})

end RunLog

end AddonIndex
