import AddonIndex.Event.RunLog
import Mathlib.Data.List.Infix

/-!
# How far the file of a log lags behind

A writer may pass on early what it is given, or keep it back until it is flushed. Since it passes on the
bytes in order, the file of a log always holds the first bytes of its text, and since it is flushed once the
messages come to a thousand bytes, only entries of fewer bytes may be missing.
-/

namespace AddonIndex

/-- The bytes of pieces, given those that stand for each stamp by its number. -/
def LogPiece.bytesFrom (shown : Nat → List UInt8) : (number : Nat) → List LogPiece → List UInt8
  | _, [] => []
  | number, .stamp :: rest => shown number ++ bytesFrom shown (number + 1) rest
  | number, .text t :: rest => t.encode.data.toList ++ bytesFrom shown number rest

/-- The text of a log of entries with the given messages, byte for byte. -/
def logText (shown : Nat → List UInt8) (messages : List Text) : List UInt8 :=
  LogPiece.bytesFrom shown 0 (messages.flatMap LogSink.linePieces)

/-- What is known of a writer, given the pieces it was given and the bytes it has passed on: it passes on
the bytes of these pieces in order, and all of them where it is flushed. -/
structure PassesInOrder {Writer : Type} [LogWriter Writer] (shown : Nat → List UInt8)
    (given : Writer → List LogPiece) (passed : Writer → List UInt8) : Prop where
  given_give : ∀ writer piece, given (LogWriter.give writer piece) = given writer ++ [piece]
  given_flush : ∀ writer, given (LogWriter.flush writer) = given writer
  passed_isPrefix : ∀ writer, passed writer <+: LogPiece.bytesFrom shown 0 (given writer)
  passed_give : ∀ writer piece, passed writer <+: passed (LogWriter.give writer piece)
  passed_flush : ∀ writer, passed (LogWriter.flush writer) = LogPiece.bytesFrom shown 0 (given writer)

/-- The bytes of messages, counting one for each line end. -/
def messageBytes : List Text → Nat
  | [] => 0
  | message :: rest => Text.utf8Size message + 1 + messageBytes rest

/-- The messages of the entries that are not completely in a file, because the text up to their end is not.
They come after entries with other messages. -/
def missingAfter (shown : Nat → List UInt8) (content : List UInt8) : (before : List Text) → List Text → List Text
  | _, [] => []
  | before, message :: rest =>
      if logText shown (before ++ [message]) <+: content then missingAfter shown content (before ++ [message]) rest
      else message :: missingAfter shown content (before ++ [message]) rest

/-- A call that adds to a log. -/
inductive LogCall
  | log (message : Text)
  | warning (message : Text) (detail : Option Text)
  | error (message : Text) (detail : Option Text)
deriving DecidableEq, Repr

namespace LogCall

/-- The messages of the entries that a call adds. -/
def messages : LogCall → List Text
  | log message => [message]
  | warning message detail => ("[WARNING] ".toList ++ message) :: detail.toList
  | error message detail => ("[ERROR] ".toList ++ message) :: detail.toList

variable {Writer : Type} [LogWriter Writer]

/-- The log after a call. -/
def perform (log : BufferedLog Writer) : LogCall → BufferedLog Writer
  | .log message => log.write message
  | .warning message detail => log.warn message detail
  | .error message detail => log.report message detail

theorem perform_eq (log : BufferedLog Writer) (call : LogCall) : call.perform log = log.appendAll call.messages := by
  cases call <;> rfl

end LogCall

section

variable {Writer : Type} [LogWriter Writer] {shown : Nat → List UInt8} {given : Writer → List LogPiece}
  {passed : Writer → List UInt8}

namespace BufferedLog

/-- The log after calls, one after another. -/
def after (log : BufferedLog Writer) (calls : List LogCall) : BufferedLog Writer := calls.foldl LogCall.perform log

/-- The content of the file of a log, given what its writer has passed on. -/
def content (passed : Writer → List UInt8) (log : BufferedLog Writer) : List UInt8 :=
  (log.writer?.map passed).getD []

end BufferedLog

/-! ## Entries in a file -/

theorem LogPiece.bytesFrom_isPrefix {first second : List LogPiece} (isPrefix : first <+: second) (number : Nat) :
    bytesFrom shown number first <+: bytesFrom shown number second := by
  obtain ⟨rest, rfl⟩ := isPrefix
  induction first generalizing number with
  | nil => exact List.nil_prefix
  | cons piece others ih =>
      cases piece with
      | stamp => exact (List.prefix_append_right_inj _).2 (ih (number + 1))
      | text t => exact (List.prefix_append_right_inj _).2 (ih number)

theorem logText_isPrefix (first second : List Text) : logText shown first <+: logText shown (first ++ second) := by
  unfold logText
  rw [List.flatMap_append]
  exact LogPiece.bytesFrom_isPrefix (List.prefix_append _ _) 0

theorem messageBytes_append (first second : List Text) :
    messageBytes (first ++ second) = messageBytes first + messageBytes second := by
  induction first with
  | nil => exact (Nat.zero_add _).symm
  | cons message rest ih => rw [List.cons_append, messageBytes, messageBytes, ih, ← Nat.add_assoc]

theorem messageBytes_missingAfter_le (content : List UInt8) (before messages : List Text) :
    messageBytes (missingAfter shown content before messages) ≤ messageBytes messages := by
  induction messages generalizing before with
  | nil => exact le_rfl
  | cons message rest ih =>
      rw [missingAfter, messageBytes]
      split
      · exact Nat.le_add_left_of_le (ih _)
      · exact Nat.add_le_add_left (ih _) _

/-- Where the text of the first entries is in a file, only others may be missing. -/
theorem missingAfter_append {content : List UInt8} {before first : List Text} (second : List Text)
    (reached : logText shown (before ++ first) <+: content) :
    missingAfter shown content before (first ++ second) = missingAfter shown content (before ++ first) second := by
  induction first generalizing before with
  | nil => rw [List.append_nil, List.nil_append]
  | cons message rest ih =>
      rw [List.append_cons] at reached ⊢
      have complete : logText shown (before ++ [message]) <+: content := (logText_isPrefix _ rest).trans reached
      rw [List.cons_append, missingAfter, if_pos complete, ih reached]

/-! ## Single entries -/

/-- The state of an open log: the file has the text of some entries, at least, and the messages of the other
ones are counted. -/
structure LogSink.Lags (shown : Nat → List UInt8) (given : Writer → List LogPiece) (passed : Writer → List UInt8)
    (reached waiting : List Text) (sink : LogSink Writer) : Prop where
  given_eq : given sink.writer = (reached ++ waiting).flatMap linePieces
  isPrefix : logText shown reached <+: passed sink.writer
  pending_eq : sink.pending = messageBytes waiting
  pending_lt : sink.pending < flushThreshold

theorem LogSink.flushThreshold_pos : 0 < flushThreshold := by decide

variable (inOrder : PassesInOrder shown given passed) {reached waiting : List Text} {sink : LogSink Writer}

include inOrder in
theorem PassesInOrder.given_foldl (writer : Writer) (pieces : List LogPiece) :
    given (pieces.foldl LogWriter.give writer) = given writer ++ pieces := by
  induction pieces generalizing writer with
  | nil => rw [List.foldl_nil, List.append_nil]
  | cons piece rest ih => rw [List.foldl_cons, ih, inOrder.given_give, List.append_assoc, List.singleton_append]

include inOrder in
theorem PassesInOrder.passed_foldl (writer : Writer) (pieces : List LogPiece) :
    passed writer <+: passed (pieces.foldl LogWriter.give writer) := by
  induction pieces generalizing writer with
  | nil => exact List.prefix_rfl
  | cons piece rest ih => exact (inOrder.passed_give writer piece).trans (ih _)

include inOrder in
/-- Either an entry is counted beside the ones that wait, or all of them reach the file. -/
theorem LogSink.Lags.append (lags : Lags shown given passed reached waiting sink) (message : Text) :
    ∃ later others, later ++ others = reached ++ waiting ++ [message] ∧
      Lags shown given passed later others (sink.append message) := by
  have counted : sink.pending + Text.utf8Size message + 1 = messageBytes (waiting ++ [message]) := by
    rw [messageBytes_append, lags.pending_eq, Nat.add_assoc]
    rfl
  have allGiven : given ((linePieces message).foldl LogWriter.give sink.writer) =
      (reached ++ waiting ++ [message]).flatMap linePieces := by
    rw [inOrder.given_foldl, lags.given_eq, ← List.flatMap_singleton linePieces message, ← List.flatMap_append]
  simp only [LogSink.append]
  split
  · refine ⟨reached ++ waiting ++ [message], [], List.append_nil _, ?_, ?_, rfl, flushThreshold_pos⟩
    · rw [List.append_nil, inOrder.given_flush, allGiven]
    · rw [inOrder.passed_flush, allGiven]
      exact List.prefix_rfl
  · rename_i few
    refine ⟨reached, waiting ++ [message], (List.append_assoc ..).symm, ?_, ?_, counted, Nat.not_le.1 few⟩
    · rw [← List.append_assoc, allGiven]
    · exact lags.isPrefix.trans (inOrder.passed_foldl _ _)

include inOrder in
theorem LogSink.Lags.foldl_append (lags : Lags shown given passed reached waiting sink) (messages : List Text) :
    ∃ later others, later ++ others = reached ++ waiting ++ messages ∧
      Lags shown given passed later others (messages.foldl LogSink.append sink) := by
  induction messages generalizing reached waiting sink with
  | nil => exact ⟨reached, waiting, (List.append_nil _).symm, lags⟩
  | cons message rest ih =>
      obtain ⟨next, others, one, step⟩ := lags.append inOrder message
      obtain ⟨last, left, all, run⟩ := ih step
      exact ⟨last, left, by rw [all, one, List.append_assoc _ [message], List.singleton_append], run⟩

/-! ## Logs -/

namespace BufferedLog

theorem appendAll_appendAll (log : BufferedLog Writer) (first second : List Text) :
    (log.appendAll first).appendAll second = log.appendAll (first ++ second) := by
  obtain ⟨sink, closed⟩ := log
  cases sink with
  | none => rfl
  | some sink => simp [appendAll]

/-- Calls add their lines one after another. -/
theorem after_eq (log : BufferedLog Writer) (calls : List LogCall) :
    log.after calls = log.appendAll (calls.flatMap LogCall.messages) := by
  induction calls generalizing log with
  | nil =>
      obtain ⟨sink, closed⟩ := log
      cases sink <;> rfl
  | cons call rest ih =>
      rw [List.flatMap_cons, ← appendAll_appendAll, ← LogCall.perform_eq]
      exact ih _

/-- Nothing is added to a log that is not open. -/
theorem appendAll_of_sink_eq_none {log : BufferedLog Writer} (notOpen : log.sink = none) (messages : List Text) :
    log.appendAll messages = log := by
  obtain ⟨sink, closed⟩ := log
  cases notOpen
  rfl

theorem sink_close (log : BufferedLog Writer) : log.close.sink = none := by
  obtain ⟨sink, closed⟩ := log
  cases sink <;> rfl

theorem close_of_sink_eq_none {log : BufferedLog Writer} (notOpen : log.sink = none) : log.close = log := by
  obtain ⟨sink, closed⟩ := log
  cases notOpen
  rfl

/-- The state of a log after it was opened and calls. -/
theorem exists_lags (inOrder : PassesInOrder shown given passed) {writer : Writer} (fresh : given writer = [])
    (calls : List LogCall) :
    ∃ reached waiting sink, reached ++ waiting = calls.flatMap LogCall.messages ∧
      ((openOn writer).after calls).sink = some sink ∧ sink.Lags shown given passed reached waiting := by
  have start : LogSink.Lags shown given passed [] [] { writer } :=
    ⟨fresh, List.nil_prefix, rfl, LogSink.flushThreshold_pos⟩
  obtain ⟨reached, waiting, same, lags⟩ := start.foldl_append inOrder (calls.flatMap LogCall.messages)
  exact ⟨reached, waiting, _, same, by rw [after_eq]; rfl, lags⟩

/-- However its writer buffers, the file of an open log holds the first bytes of its text, and the messages of
the entries that are not completely in it have fewer than a thousand bytes, counting one for each line end.
The file of a closed log holds its text, and nothing is added to it. -/
theorem content_lags (inOrder : PassesInOrder shown given passed) (writer : Writer) (fresh : given writer = [])
    (calls : List LogCall) :
    ((openOn writer).after calls).isEnabled ∧
    content passed ((openOn writer).after calls) <+: logText shown (calls.flatMap LogCall.messages) ∧
    messageBytes (missingAfter shown (content passed ((openOn writer).after calls)) []
      (calls.flatMap LogCall.messages)) < 1000 ∧
    content passed ((openOn writer).after calls).close = logText shown (calls.flatMap LogCall.messages) ∧
    ∀ later : List LogCall,
      ((openOn writer).after calls).close.after later = ((openOn writer).after calls).close ∧
      (((openOn writer).after calls).close.after later).close = ((openOn writer).after calls).close := by
  obtain ⟨reached, waiting, sink, same, isOpen, lags⟩ := exists_lags inOrder fresh calls
  generalize (openOn writer).after calls = log at isOpen
  obtain ⟨_, closed⟩ := log
  cases isOpen
  rw [← same]
  refine ⟨rfl, ?_, ?_, ?_, fun later => ?_⟩
  · have isPrefix := inOrder.passed_isPrefix sink.writer
    rwa [lags.given_eq] at isPrefix
  · refine lt_of_le_of_lt ?_ lags.pending_lt
    rw [missingAfter_append waiting lags.isPrefix, lags.pending_eq]
    exact messageBytes_missingAfter_le _ _ _
  · exact (inOrder.passed_flush sink.writer).trans (by rw [lags.given_eq]; rfl)
  · have notOpen := sink_close (⟨some sink, closed⟩ : BufferedLog Writer)
    rw [after_eq, appendAll_of_sink_eq_none notOpen, close_of_sink_eq_none notOpen]
    exact ⟨rfl, rfl⟩

end BufferedLog

end

/-! ## The writer of a file -/

namespace FileWriter

/-- The pieces that a writer was given. -/
def given (writer : FileWriter) : List LogPiece := writer.written ++ writer.collected

/-- The bytes that it has passed on. -/
def passed (shown : Nat → List UInt8) (writer : FileWriter) : List UInt8 :=
  LogPiece.bytesFrom shown 0 writer.written

theorem given_collect (writer : FileWriter) (piece : LogPiece) :
    (writer.collect piece).given = writer.given ++ [piece] := by
  unfold given collect
  split
  · exact List.append_nil _
  · dsimp only
    split
    · simp [flush]
    · rw [List.append_assoc]

theorem written_isPrefix_collect (writer : FileWriter) (piece : LogPiece) :
    writer.written <+: (writer.collect piece).written := by
  unfold collect
  split
  · rw [List.append_assoc]
    exact List.prefix_append _ _
  · dsimp only
    split
    · exact List.prefix_append _ _
    · exact List.prefix_rfl

/-- The writer of a log file passes on what it is given in order. -/
theorem passesInOrder (shown : Nat → List UInt8) :
    PassesInOrder shown FileWriter.given (FileWriter.passed shown) where
  given_give := given_collect
  given_flush _ := List.append_nil _
  passed_isPrefix _ := LogPiece.bytesFrom_isPrefix (List.prefix_append _ _) 0
  passed_give writer piece := LogPiece.bytesFrom_isPrefix (written_isPrefix_collect writer piece) 0
  passed_flush _ := rfl

end FileWriter

/-- The stamps of entries that are made within a minute. -/
def sameStamp : Nat → List UInt8 := fun _ => (Text.encode "2024-05-01 03:15 PM").data.toList

/-- A warning with its detail. -/
def slowWarning : LogCall := .warning ['s', 'l', 'o', 'w'] (some ['d', 'i', 's', 'k'])

/-- A short warning is collected, and it is written where the log is closed. -/
theorem slowWarning_lags :
    ((BufferedLog.openOn ({} : FileWriter)).after [slowWarning]).content (FileWriter.passed sameStamp) = [] ∧
      messageBytes (missingAfter sameStamp [] [] slowWarning.messages) < 1000 ∧
      ((BufferedLog.openOn ({} : FileWriter)).after [slowWarning]).close.content (FileWriter.passed sameStamp) =
        logText sameStamp ["[WARNING] slow", "disk"] := by
  obtain ⟨-, -, few, complete, -⟩ :=
    BufferedLog.content_lags (FileWriter.passesInOrder sameStamp) {} rfl [slowWarning]
  exact ⟨rfl, few, complete⟩

end AddonIndex
