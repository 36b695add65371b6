import AddonIndex.Proofs.Indexing.Cancellation
import AddonIndex.Proofs.Indexing.Turn

/-!
# The protocol of a run

The events of a run are the announcement of the addons and their blocks, an
error about the run if it is given up, its end, and at most one error about the
directory that was not deleted. This holds however the workers are interleaved,
whatever the tools and the reader do, and whenever addons are cancelled.
-/

namespace AddonIndex.Indexing

open Activity

variable {environment : Environment} {selection : Selection}

/-- The course of a run up to its end: whether it failed, what it announced, and the turns of
the addons. A run can fail before it announces anything and before the first turn. -/
inductive Course (selection : Selection) : Bool → List Event → List Turn → Prop
  | unannounced : Course selection true [] []
  | unprepared (addons : List Handle) (distinct : addons.Nodup) :
      Course selection true [.started selection addons] []
  | announced {addons : List Handle} {failed : Bool} {turns : List Turn} (distinct : addons.Nodup)
      (taken : TakeTurns addons failed turns) :
      Course selection failed [.started selection addons] turns

/-! ## Up to the addons to publish -/

theorem quiet_noteAll (lines : List Text) : Quiet (noteAll lines) := by
  induction lines with
  | nil => exact quiet_pure ()
  | cons line rest ih => exact (quiet_note line).bind fun _ => ih

theorem quiet_ensureReferenceRoot (root : Path) : Quiet (ensureReferenceRoot root) := by
  refine (quiet_inspect _).bind fun there => ?_
  split
  · refine (quiet_inspect _).bind fun isDirectory => ?_
    split <;> exact quiet_pure _
  · refine (quiet_perform _).bind fun made => ?_
    split <;> exact quiet_pure _

theorem quiet_discover (roots : List Text) : Quiet (discover selection roots) := by
  induction roots with
  | nil => exact quiet_pure _
  | cons root rest ih =>
      refine (quiet_inspect _).bind fun children => ?_
      split
      · exact ih
      · exact (quiet_note _).bind fun _ => (quiet_noteAll _).bind fun _ =>
          (quiet_noteAll _).bind fun _ => ih.bind fun _ => quiet_pure _

theorem quiet_createTempRoot (root : Path) : Quiet (createTempRoot root) := by
  refine (quiet_inspect _).bind fun path => (quiet_perform _).bind fun made => ?_
  split <;> exact quiet_pure _

theorem quiet_collect (addons : List Handle) : Quiet (collect addons) := by
  induction addons with
  | nil => exact quiet_pure _
  | cons addon rest ih =>
      unfold collect
      refine (quiet_inspect _).bind fun cancelled => ?_
      split
      · exact (quiet_count _).bind fun _ => (quiet_note _).bind fun _ => ih
      · exact (quiet_count _).bind fun _ => (quiet_note _).bind fun _ =>
          (quiet_inspect _).bind fun _ => ih.bind fun _ => quiet_pure _

theorem returns_takeReply {reply : ToolReply} (answers : reply ≠ .abort) :
    Returns (takeReply reply) := by
  cases reply with
  | outcome outcome => trivial
  | error e => trivial
  | abort => exact absurd rfl answers

/-- The call that checks the tools comes to a result if the check does not abort. -/
theorem quiet_check (checked : ∀ tree, (environment.tools.check tree).reply ≠ .abort) :
    Quiet (callTool environment.tools.check) :=
  ⟨always_callTool _, fun world => returns_takeReply (checked world.tree)⟩

/-- The handles of discovered addons, in the order of discovery. -/
def handlesOf (directories : List Path) : List Handle :=
  directories.mapIdx fun index directory => { index, directory }

theorem pairwise_handlesOf (directories : List Path) :
    (handlesOf directories).Pairwise fun first second => first.index ≠ second.index := by
  unfold handlesOf
  rw [List.pairwise_iff_getElem]
  intro i j iInside jInside less same
  rw [List.getElem_mapIdx, List.getElem_mapIdx] at same
  exact absurd same (Nat.ne_of_lt less)

/-- Enrolled addons are distinct. -/
theorem tells_enroll (directories : List Path) :
    Tells (enroll directories) fun addons word => word = [] ∧ addons.Nodup := by
  intro world moves after result execution live
  obtain ⟨seen, -, rfl, before, gap⟩ := executes_act_iff.1 execution
  obtain ⟨seenLive, seenReported⟩ := reported_of_interference before live
  obtain ⟨afterLive, afterReported⟩ := reported_of_interference gap seenLive
  refine ⟨_, [], rfl, afterLive, ?_, rfl, ?_⟩
  · rw [afterReported, List.append_nil]
    exact seenReported
  · exact (pairwise_handlesOf directories).imp fun apart same => apart (congrArg Handle.index same)

theorem quiet_deleteTempRoot (tempRoot : Path) : Quiet (deleteTempRoot tempRoot) := by
  refine (quiet_perform _).bind fun deleted => ?_
  split
  · exact quiet_note _
  · exact quiet_pure _

theorem reports_gather (tempRoot : Path) (addons : List Handle) (indexed : Except RunFailure Unit) :
    Reports (gather tempRoot addons indexed) fun answer word =>
      word = [] ∧ indexed.isOk = answer.isOk := by
  cases indexed with
  | error failure => exact reports_pure ⟨rfl, rfl⟩
  | ok _ =>
      exact (quiet_deleteTempRoot tempRoot).reports_bind fun _ =>
        (quiet_collect addons).reports_bind fun _ => reports_pure ⟨rfl, rfl⟩

/-- What is reported about announced addons is their blocks. -/
theorem conducts_indexAll (selection : Selection) (root : Path) (addons : List Handle) :
    Conducts (indexAll environment root addons) fun answer opening turns =>
      opening = [] ∧ (addons.Nodup →
        Course selection (!answer.isOk) [.started selection addons] turns) := by
  refine (quiet_createTempRoot root).conducts_bind fun created => ?_
  split
  · rename_i failure
    refine (reports_answer (Except.error failure)).tells.conducts.mono ?_
    rintro _ _ _ ⟨⟨rfl, rfl⟩, rfl⟩
    exact ⟨rfl, fun distinct => .unprepared addons distinct⟩
  · rename_i tempRoot
    refine (quiet_modify ?_ ?_).conducts_bind fun _ => (quiet_note _).conducts_bind fun _ => ?_
    · exact fun _ => rfl
    · exact fun _ => rfl
    · refine ((conducts_indexEach environment _ tempRoot addons).bind_quiet fun indexed =>
        (reports_gather tempRoot addons indexed).tells).mono ?_
      rintro answer _ turns ⟨indexed, ⟨rfl, taken⟩, same⟩
      exact ⟨rfl, fun distinct => .announced distinct (same ▸ taken)⟩

/-- A run announces the addons and takes their turns, unless it fails before. -/
theorem conducts_loadAddons (checked : ∀ tree, (environment.tools.check tree).reply ≠ .abort) :
    Conducts (loadAddons environment selection) fun answer opening turns =>
      Course selection (!answer.isOk) opening turns := by
  have unannounced : ∀ failure : RunFailure,
      Conducts (return .error failure : Run (Except RunFailure (List Addon)))
        fun answer opening turns => Course selection (!answer.isOk) opening turns := by
    intro failure
    refine (reports_answer (Except.error failure)).tells.conducts.mono ?_
    rintro _ _ _ ⟨⟨rfl, rfl⟩, rfl⟩
    exact .unannounced
  refine (quiet_ensureReferenceRoot _).conducts_bind fun ensured => ?_
  split
  · exact unannounced _
  · refine (quiet_check checked).conducts_bind fun tools => ?_
    split
    · exact unannounced _
    · refine (quiet_discover _).conducts_bind fun directories => ?_
      refine ((tells_enroll directories).conducts_bind fun addons =>
        (reports_submit (.started selection addons)).tells.conducts_bind fun _ =>
          conducts_indexAll selection selection.referenceRoot addons).mono ?_
      rintro answer _ turns ⟨addons, _, _, rfl, ⟨rfl, distinct⟩, _, _, _, rfl, rfl, rfl, course⟩
      exact course distinct

theorem quiet_openLog (path : Option Path) : Quiet (openLog path) := by
  refine (quiet_perform _).bind fun opened => ?_
  split
  · refine quiet_modify ?_ ?_
    · exact fun _ => rfl
    · exact fun _ => rfl
  · exact quiet_pure _

theorem conducts_attempt (checked : ∀ tree, (environment.tools.check tree).reply ≠ .abort)
    (logPath : Option Path) :
    Conducts (attempt environment selection logPath) fun answer opening turns =>
      Course selection (!answer.isOk) opening turns :=
  (quiet_openLog logPath).conducts_bind fun _ => (quiet_note _).conducts_bind fun _ =>
    conducts_loadAddons checked

/-! ## Cancellations -/

theorem keeps_indexEach (cache : ReferenceCache) (tempRoot : Path) (addons : List Handle) :
    Always KeepsCancelled (indexEach environment cache tempRoot addons) := by
  induction addons with
  | nil => trivial
  | cons addon rest ih =>
      refine (quiet_inspect _).keeps.bind fun cancelled => ?_
      split
      · exact ih
      · refine (reports_indexAddon _ _).keeps.bind fun indexed => ?_
        split
        · trivial
        · exact ih

theorem keeps_indexAll (root : Path) (addons : List Handle) :
    Always KeepsCancelled (indexAll environment root addons) := by
  refine (quiet_createTempRoot root).keeps.bind fun created => ?_
  split
  · trivial
  · refine (quiet_modify ?_ ?_).keeps.bind fun _ => (quiet_note _).keeps.bind fun _ =>
      (keeps_indexEach _ _ _).bind fun indexed => (reports_gather _ addons indexed).keeps
    · exact fun _ => rfl
    · exact fun _ => rfl

theorem silent_enroll (directories : List Path) : Always Silent (enroll directories) :=
  always_act fun _ live => ⟨live, rfl⟩

theorem enrolls_attempt (checked : ∀ tree, (environment.tools.check tree).reply ≠ .abort)
    (logPath : Option Path) : Enrolls (attempt environment selection logPath) := by
  refine (quiet_openLog logPath).enrolls_bind fun _ => (quiet_note _).enrolls_bind fun _ =>
    (quiet_ensureReferenceRoot _).enrolls_bind fun ensured => ?_
  split
  · exact .of_keeps trivial
  · refine (quiet_check checked).enrolls_bind fun tools => ?_
    split
    · exact .of_keeps trivial
    · exact (quiet_discover _).enrolls_bind fun directories =>
        .silent_bind (silent_enroll directories) fun addons =>
          .of_keeps ((reports_submit _).keeps.bind fun _ => keeps_indexAll _ addons)

/-! ## The end of a run -/

/-- The report of the failure that a run is given up for. -/
def failureReport {α : Type} : Except RunFailure α → List Event
  | .ok _ => []
  | .error failure => [.error none "Couldn't complete indexing addons" (some failure.message)]

/-- The report of a temporary directory that cannot be deleted. -/
def deletionReport (tempRoot : Path) : Except FileError Unit → List Event
  | .ok () => []
  | .error cause =>
      [.error none ("Failed to delete root temp directory ".toList ++ tempRoot.text)
        (some cause.message)]

/-- What is reported at the end of a run about its temporary directory. -/
def leftoverReport (world : World) : List Event :=
  match world.tempRoot with
  | none => []
  | some tempRoot =>
      if world.tree.pathExists tempRoot then
        deletionReport tempRoot ((FileOp.removeTree tempRoot).run world.tree).2
      else []

theorem reports_runError (text : Text) (detail : Option Text) :
    Reports (error none text detail) fun _ word => word = [.error none text detail] := by
  refine (quiet_modify ?_ ?_).reports_bind fun _ => reports_submit _
  · exact fun _ => rfl
  · exact fun _ => rfl

theorem reports_settle (outcome : Except RunFailure (List Addon)) :
    Reports (settle outcome) fun _ word => word = failureReport outcome := by
  cases outcome with
  | ok addons =>
      refine ((quiet_modify ?_ ?_).bind fun _ => quiet_modify ?_ ?_).reports <;> exact fun _ => rfl
  | error failure => exact reports_runError _ _

theorem reports_reportLeft (tempRoot : Path) (deleted : Except FileError Unit) :
    Reports (reportLeft tempRoot deleted) fun _ word => word = deletionReport tempRoot deleted := by
  cases deleted with
  | ok _ => exact reports_pure rfl
  | error cause => exact reports_runError _ _

/-- The temporary directory is deleted, or it is reported why it is not. -/
theorem reported_removeTempRoot {world after : World} {moves : List (Move World)}
    {result : Option Unit} (execution : Executes Interference removeTempRoot world moves after result)
    (live : world.channel.Live) :
    result = some () ∧ after.channel.Live ∧
      after.channel.reported = world.channel.reported ++ leftoverReport world := by
  obtain ⟨seen, _, -, gap, execution⟩ := executes_inspect_bind_iff.1 execution
  obtain ⟨seenLive, seenReported⟩ := reported_of_interference gap live
  obtain ⟨sameTree, sameRoot⟩ := files_of_interference gap
  unfold leftoverReport
  rw [← sameRoot, ← sameTree, ← seenReported]
  cases rootOf : seen.tempRoot with
  | none =>
      rw [rootOf] at execution
      obtain ⟨-, rfl, rest⟩ := executes_pure_iff.1 execution
      obtain ⟨afterLive, reported⟩ := reported_of_interference rest seenLive
      exact ⟨rfl, afterLive, by rw [reported]; exact (List.append_nil _).symm⟩
  | some tempRoot =>
      rw [rootOf] at execution
      obtain ⟨looked, _, -, gap, execution⟩ := executes_inspect_bind_iff.1 execution
      obtain ⟨lookedLive, lookedReported⟩ := reported_of_interference gap seenLive
      have lookedTree := (files_of_interference gap).1
      simp only [← lookedTree, ← lookedReported]
      split at execution
      · rename_i there
        rw [if_pos there]
        obtain ⟨deleting, _, -, gap, execution⟩ := executes_act_bind_iff.1 execution
        obtain ⟨deletingLive, deletingReported⟩ := reported_of_interference gap lookedLive
        rw [← (files_of_interference gap).1, ← deletingReported]
        obtain ⟨_, _, rfl, afterLive, reported, rfl⟩ :=
          (reports_reportLeft tempRoot _).tells _ _ _ _ execution deletingLive
        exact ⟨rfl, afterLive, reported⟩
      · rename_i missing
        rw [if_neg missing]
        obtain ⟨-, rfl, rest⟩ := executes_pure_iff.1 execution
        obtain ⟨afterLive, reported⟩ := reported_of_interference rest lookedLive
        exact ⟨rfl, afterLive, by rw [reported, List.append_nil]⟩

/-- A run reports its failure, if there is one, its end, and what it leaves behind. -/
theorem reported_conclude {outcome : Except RunFailure (List Addon)} {world after : World}
    {moves : List (Move World)} {result : Option Unit}
    (execution : Executes Interference (conclude outcome) world moves after result)
    (live : world.channel.Live) :
    result = some () ∧ after.channel.Live ∧ ∃ move ∈ moves,
      after.channel.reported =
        world.channel.reported ++ (failureReport outcome ++ .finished :: leftoverReport move.1) := by
  rcases executes_bind_cases execution with
    ⟨_, _, middle, _, rfl, left, right⟩ | ⟨aborted, -⟩
  · obtain ⟨_, _, -, middleLive, middleReported, rfl⟩ := (reports_settle outcome).tells _ _ _ _ left live
    -- Whatever the run leaves behind is there when its end is reported.
    obtain ⟨ending, _, rfl, gap, right⟩ := executes_modify_bind_iff.1 right
    obtain ⟨endingLive, endingReported⟩ := reported_of_interference gap middleLive
    rcases executes_bind_cases right with ⟨_, _, removed, _, rfl, left, right⟩ | ⟨aborted, -⟩
    · obtain ⟨-, removedLive, removedReported⟩ :=
        reported_removeTempRoot left (endingLive.submit .finished)
      obtain ⟨_, _, rfl, afterLive, afterReported, rfl⟩ :=
        (quiet_note _).reports.tells _ _ _ _ right removedLive
      refine ⟨rfl, afterLive, (ending, _), List.mem_append_right _ List.mem_cons_self, ?_⟩
      rw [afterReported, removedReported]
      simp [EventChannel.reported_submit endingLive, endingReported, middleReported, leftoverReport]
    · obtain ⟨none, -⟩ := reported_removeTempRoot aborted (endingLive.submit .finished)
      cases none
  · obtain ⟨_, _, none, -⟩ := (reports_settle outcome).tells _ _ _ _ aborted live
    cases none

theorem keeps_removeTempRoot : Always KeepsCancelled removeTempRoot := by
  refine (quiet_inspect _).keeps.bind fun tempRoot => ?_
  split
  · trivial
  · refine (quiet_inspect _).keeps.bind fun there => ?_
    split
    · exact (quiet_perform _).keeps.bind fun deleted => (reports_reportLeft _ deleted).keeps
    · trivial

theorem keeps_conclude (outcome : Except RunFailure (List Addon)) :
    Always KeepsCancelled (conclude outcome) :=
  (reports_settle outcome).keeps.bind fun _ => (reports_submit _).keeps.bind fun _ =>
    keeps_removeTempRoot.bind fun _ => (quiet_note _).keeps

/-! ## Closing the channel -/

theorem channel_close (world : World) : world.close.channel = world.channel.close := by
  unfold World.close World.saveLog
  split
  · rfl
  · split <;> rfl

theorem progress_close (world : World) : world.close.progress = world.progress := by
  unfold World.close World.saveLog
  split
  · rfl
  · split <;> rfl

/-- After a channel was closed nothing is delivered any more. -/
theorem closed_of_interference {world after : World} {delivered : List Event}
    (closed : world.channel = { queue := [], delivered, listening := false, isOpen := false })
    (gap : Relation.ReflTransGen Interference world after) :
    after.channel = { queue := [], delivered, listening := false, isOpen := false } := by
  induction gap with
  | refl => exact closed
  | tail _ last ih =>
      cases last with
      | cancel addon => exact ih
      | deliver =>
          change EventChannel.deliverNext _ = _
          rw [ih]
          rfl

/-! ## The whole run -/

/-- Whether events are the report of a run: the announcement of the addons and their blocks, the
failure if there was one, the end, and what was left behind. The turns come in the course of the
moves of the run, and what is left behind is seen at one of them. -/
structure IsReport (selection : Selection) (moves : List (Move World))
    (outcome : Except RunFailure (List Addon)) (opening : List Event) (turns : List Turn)
    (last : Move World) (events : List Event) : Prop where
  course : Course selection (!outcome.isOk) opening turns
  come : ComeIn opening moves turns
  distinct : (turns.map Turn.addon).Nodup
  inMoves : last ∈ moves
  word : events = opening ++ blocks turns ++ failureReport outcome ++ .finished :: leftoverReport last.1

theorem Course.distinct {failed : Bool} {opening : List Event} {turns : List Turn}
    (course : Course selection failed opening turns) : (turns.map Turn.addon).Nodup := by
  cases course with
  | unannounced => exact List.nodup_nil
  | unprepared => exact List.nodup_nil
  | announced distinct taken => exact distinct.sublist taken.addons_prefix.sublist

theorem Course.finished_not_mem {failed : Bool} {opening : List Event} {turns : List Turn}
    (course : Course selection failed opening turns) : Event.finished ∉ opening ++ blocks turns := by
  cases course with
  | unannounced => exact List.not_mem_nil
  | unprepared => simp [blocks]
  | announced _ taken => simpa using taken.finished_not_mem

/-- The end of the run is reported once. -/
theorem IsReport.count_finished {moves : List (Move World)} {outcome : Except RunFailure (List Addon)}
    {opening : List Event} {turns : List Turn} {last : Move World} {events : List Event}
    (report : IsReport selection moves outcome opening turns last events) :
    events.count .finished = 1 := by
  have failure : Event.finished ∉ failureReport outcome := by
    cases outcome <;> simp [failureReport]
  have leftover : Event.finished ∉ leftoverReport last.1 := by
    unfold leftoverReport
    split
    · exact List.not_mem_nil
    · split
      · unfold deletionReport
        split <;> simp
      · exact List.not_mem_nil
  rw [report.word, List.count_append, List.count_append, List.count_cons_self,
    List.count_eq_zero_of_not_mem report.course.finished_not_mem,
    List.count_eq_zero_of_not_mem failure, List.count_eq_zero_of_not_mem leftover]

/-- What is to be delivered when the channel is closed is a report. -/
theorem conduct_reports (checked : ∀ tree, (environment.tools.check tree).reply ≠ .abort)
    {logPath : Option Path} {world after : World} {moves : List (Move World)}
    {result : Option Unit} (fresh : world.channel = {})
    (execution :
      Executes Interference (conduct environment selection logPath) world moves after result) :
    result = some () ∧ after.channel.Live ∧ ∃ outcome opening turns last,
      IsReport selection moves outcome opening turns last after.channel.reported := by
  have live : world.channel.Live := fresh ▸ EventChannel.live_new
  have unreported : world.channel.reported = [] := by rw [fresh]; rfl
  rcases executes_bind_cases execution with
    ⟨tried, concluded, middle, outcome, rfl, trying, concluding⟩ | ⟨aborted, -⟩
  · obtain ⟨_, opening, turns, same, middleLive, reported, course, come⟩ :=
      conducts_attempt checked logPath world tried middle _ trying live
    cases same
    obtain ⟨rfl, afterLive, last, inMoves, word⟩ := reported_conclude concluding middleLive
    rw [unreported] at reported come
    exact ⟨rfl, afterLive, outcome, opening, turns, last,
      { course
        come := come.append_right concluded
        distinct := course.distinct
        inMoves := List.mem_append_right _ inMoves
        word := by simp [word, reported] }⟩
  · obtain ⟨_, _, _, none, -⟩ := conducts_attempt checked logPath world moves after _ aborted live
    cases none

/-- Every execution of a run comes to its end and delivers a report, in which the end of the run
occurs once. Whoever is cancelled after the addons were announced stays so. -/
theorem run_delivers_report (checked : ∀ tree, (environment.tools.check tree).reply ≠ .abort)
    {logPath : Option Path} {world after : World} {moves : List (Move World)}
    {result : Option Unit} (fresh : world.channel = {})
    (execution : Executes Interference (run environment selection logPath) world moves after result) :
    result = some () ∧
      (∃ outcome opening turns last,
        IsReport selection moves outcome opening turns last after.channel.delivered) ∧
      after.channel.delivered.count .finished = 1 ∧ StaysCancelled [] moves := by
  have live : world.channel.Live := fresh ▸ EventChannel.live_new
  have unreported : world.channel.reported = [] := by rw [fresh]; rfl
  have enrolls : Enrolls (run environment selection logPath) :=
    ((enrolls_attempt checked logPath).bind_keeps keeps_conclude).bind_keeps fun _ =>
      always_modify fun world addon cancelled => by
        rw [World.progressOf, progress_close]
        exact cancelled
  have stays := enrolls.staysCancelled execution live
  rw [unreported] at stays
  rcases executes_bind_cases execution with
    ⟨conducted, closed, ended, _, rfl, conducting, closing⟩ | ⟨aborted, -⟩
  · obtain ⟨-, endedLive, outcome, opening, turns, last, report⟩ :=
      conduct_reports checked fresh conducting
    obtain ⟨taken, rfl, rfl, gap, rest⟩ := executes_modify_iff.1 closing
    obtain ⟨takenLive, takenReported⟩ := reported_of_interference gap endedLive
    have delivered := closed_of_interference
      ((channel_close taken).trans (EventChannel.close_eq takenLive)) rest
    have whole : IsReport selection (conducted ++ [(taken, taken.close)]) outcome opening turns last
        after.channel.delivered :=
      { report with
        come := report.come.append_right _
        inMoves := List.mem_append_left _ report.inMoves
        word := by rw [delivered, takenReported, report.word] }
    exact ⟨rfl, ⟨outcome, opening, turns, last, whole⟩, whole.count_finished, stays⟩
  · obtain ⟨none, -⟩ := conduct_reports checked fresh aborted
    cases none

/-- Tools that succeed and change nothing. -/
def idleTools : ArchiveTools where
  check tree := { tree, reply := .outcome .success }
  extract _ _ _ tree := { tree, reply := .outcome .success }
  convert _ _ _ tree := { tree, reply := .outcome .success }

/-- The run over a root with one addon in it, with tools that change nothing. -/
def idleRun : Run Unit :=
  run { tools := idleTools }
    { roots := ["mods"], referenceDirectory := "cache", denied := [], allowed := [] } none

/-- The files that `idleRun` begins with. -/
def idleWorld : World where
  tree := { entries := [(["mods"], .directory), (["mods", "@one"], .directory)] }

theorem idleRun_delivers_report :
    ∃ moves, Executes Interference idleRun idleWorld moves (idleRun.run idleWorld).1
        (idleRun.run idleWorld).2 ∧
      (idleRun.run idleWorld).2 = some () ∧
      (∃ outcome opening turns last,
        IsReport { roots := ["mods"], referenceDirectory := "cache", denied := [], allowed := [] }
          moves outcome opening turns last (idleRun.run idleWorld).1.channel.delivered) ∧
      (idleRun.run idleWorld).1.channel.delivered.count .finished = 1 ∧ StaysCancelled [] moves := by
  obtain ⟨moves, execution⟩ : ∃ moves, Executes Interference idleRun idleWorld moves _ _ :=
    executes_run idleRun idleWorld
  exact ⟨moves, execution, run_delivers_report (fun _ aborts => by cases aborts) rfl execution⟩

end AddonIndex.Indexing
