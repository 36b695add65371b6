import AddonIndex.Proofs.Indexing.Obtained
import AddonIndex.Proofs.Indexing.Polling
import AddonIndex.Proofs.Reference.Marking

/-!
# When an entry is marked as complete

The stage that saves files ends with an entry that is marked as complete exactly
if it completes. Then a copy of every file was attempted and each that failed was
reported. It stops if the entry cannot be prepared or a look finds the addon
cancelled; but the last look comes before the last copy, and with nothing to copy
there is none.
-/

namespace AddonIndex.Indexing

open Activity FileTree ReferenceCache

variable {α β : Type} {addon : Handle}

/-! ## Steps that change no files -/

/-- Whether the files and the extraction directories are the same in two worlds. -/
structure SameFiles (before after : World) : Prop where
  tree : after.tree = before.tree
  extracted : after.extracted = before.extracted

namespace SameFiles

theorem refl (world : World) : SameFiles world world := ⟨rfl, rfl⟩

theorem trans {first second third : World} (before : SameFiles first second)
    (after : SameFiles second third) : SameFiles first third :=
  ⟨after.tree.trans before.tree, after.extracted.trans before.extracted⟩

theorem of_interference {before after : World} (interferes : Interference before after) :
    SameFiles before after := by
  cases interferes <;> exact ⟨rfl, rfl⟩

theorem of_gap {before after : World} (gap : Relation.ReflTransGen Interference before after) :
    SameFiles before after := by
  induction gap with
  | refl => exact .refl _
  | tail _ last ih => exact ih.trans (.of_interference last)

theorem submit (world : World) (event : Event) : SameFiles world (world.submit event) := ⟨rfl, rfl⟩

end SameFiles

/-- Activities that change no files leave them as they are. -/
theorem sameFiles_of_executes {activity : Run α} (same : Always SameFiles activity) {world after : World}
    {moves : List (Move World)} {result : Option α}
    (execution : Executes Interference activity world moves after result) : SameFiles world after :=
  same.relates SameFiles.refl (fun _ _ _ => SameFiles.trans) (fun _ _ => SameFiles.of_interference) execution

theorem sameFiles_modify {change : World → World} (same : ∀ world, SameFiles world (change world)) :
    Always SameFiles (modify change) :=
  always_modify same

theorem sameFiles_note (line : Text) : Always SameFiles (note line) :=
  always_modify fun _ => ⟨rfl, rfl⟩

theorem sameFiles_submit (event : Event) : Always SameFiles (submit event) :=
  always_modify fun _ => ⟨rfl, rfl⟩

theorem sameFiles_count (change : Tally → Tally) : Always SameFiles (count change) :=
  always_modify fun _ => ⟨rfl, rfl⟩

theorem sameFiles_updateProgress (change : Progress → Progress) :
    Always SameFiles (modify (World.updateProgress · addon change)) :=
  always_modify fun _ => ⟨rfl, rfl⟩

theorem sameFiles_message (text : Text) : Always SameFiles (message addon text) :=
  (sameFiles_note _).bind fun _ => sameFiles_submit _

theorem sameFiles_error (about : Option Handle) (text : Text) (detail : Option Text) :
    Always SameFiles (error about text detail) := by
  refine (sameFiles_modify ?_).bind fun _ => sameFiles_submit _
  exact fun _ => ⟨rfl, rfl⟩

theorem sameFiles_unitDone : Always SameFiles (unitDone addon) := by
  refine (always_act ?_).bind fun _ => sameFiles_submit _
  exact fun _ => ⟨rfl, rfl⟩

theorem sameFiles_beginWork (units : Nat) : Always SameFiles (beginWork addon units) :=
  (sameFiles_updateProgress _).bind fun _ => (sameFiles_submit _).bind fun _ => sameFiles_submit _

/-- After an operation on the files the rest goes on from the files that it leaves. -/
theorem executes_perform_bind_iff {outside : World → World → Prop} {operation : FileOp α}
    {next : Except FileError α → Run β} {world after : World} {moves : List (Move World)} {result : Option β} :
    Executes outside (perform operation >>= next) world moves after result ↔
      ∃ seen rest, moves = (seen, { seen with tree := (operation.run seen.tree).1 }) :: rest ∧
        Relation.ReflTransGen outside world seen ∧
        Executes outside (next (operation.run seen.tree).2)
          { seen with tree := (operation.run seen.tree).1 } rest after result :=
  executes_act_bind_iff

/-! ## Copies -/

/-- The files after copies one after another, whether they succeed or fail, and the files that were
not copied, each with the cause. -/
def copyEach (entry : Path) : List (Text × Reference.SourceFile) → FileTree →
    FileTree × List (Reference.SourceFile × FileError)
  | [], tree => (tree, [])
  | (name, file) :: rest, tree =>
      let (next, result) := (ReferenceCache.copy entry name file).run tree
      let (last, failures) := copyEach entry rest next
      match result with
      | .ok _ => (last, failures)
      | .error cause => (last, (file, cause) :: failures)

namespace AddonWork

variable {work : AddonWork}

/-- The events that report the files that were not copied. -/
def copyFailures (work : AddonWork) (entry : Path) (failures : List (Reference.SourceFile × FileError)) :
    List Event :=
  failures.map fun failure => work.copyFailure entry failure.1 failure.2

theorem reports_reportCopy (entry : Path) (file : Reference.SourceFile) (result : Except FileError Path) :
    Reports (work.reportCopy entry file result) fun _ word =>
      match result with
      | .ok _ => True
      | .error cause => word = [work.copyFailure entry file cause] := by
  cases result with
  | ok target =>
      exact (((concerns_count _).bind fun _ => concerns_message _).reports).mono fun _ _ _ => trivial
  | error cause =>
      refine (quiet_count _).reports_bind fun _ => (quiet_modify ?_ ?_).reports_bind fun _ => reports_submit _
      · exact fun _ => rfl
      · exact fun _ => rfl

theorem sameFiles_reportCopy (entry : Path) (file : Reference.SourceFile) (result : Except FileError Path) :
    Always SameFiles (work.reportCopy entry file result) := by
  cases result with
  | ok target => exact (sameFiles_count _).bind fun _ => sameFiles_message _
  | error cause => exact (sameFiles_count _).bind fun _ => sameFiles_error _ _ _

/-- A unit of saving is one copy, which is reported if it fails. -/
theorem executes_saveUnit {entry : Path} {item : Text × Reference.SourceFile} {world after : World}
    {moves : List (Move World)} {result : Option Unit}
    (execution : Executes Interference (work.saveUnit entry item) world moves after result)
    (live : world.channel.Live) :
    after.channel.Live ∧ ∃ word, after.channel.reported = world.channel.reported ++ word ∧
      ∃ answer, (copy entry item.1 item.2).run world.tree = (after.tree, answer) ∧
        ∀ cause, answer = .error cause → work.copyFailure entry item.2 cause ∈ word := by
  obtain ⟨seen, rest, rfl, gap, execution⟩ := executes_perform_bind_iff.1 execution
  obtain ⟨seenLive, seenReported⟩ := reported_of_interference gap live
  obtain ⟨answer, word, -, afterLive, reported, fits⟩ :=
    ((work.reports_reportCopy entry item.2 _).bind fun _ => concerns_unitDone.reports).tells
      _ _ _ _ execution seenLive
  obtain ⟨_, first, second, rfl, told, -⟩ := fits
  have same := sameFiles_of_executes
    ((work.sameFiles_reportCopy entry item.2 _).bind fun _ => sameFiles_unitDone) execution
  have tree := same.tree
  have seenTree := (SameFiles.of_gap gap).tree
  refine ⟨afterLive, first ++ second, reported.trans (congrArg (· ++ _) seenReported), ?_⟩
  rw [← seenTree]
  refine ⟨((copy entry item.1 item.2).run seen.tree).2, ?_, fun cause failed => ?_⟩
  · rw [tree]
  · rw [failed] at told
    rw [told]
    exact List.mem_append_left _ (List.mem_singleton_self _)

end AddonWork

/-- What no copy changes is not changed by saving. -/
theorem Polls.keeps {work : AddonWork} {entry : Path} {plan : List (Text × Reference.SourceFile)}
    {world after : World} {moves : List (Move World)} {status : StageStatus} {holds : FileTree → Prop}
    (polls : Polls work.addon (work.saveUnit entry) plan world moves after status)
    (live : world.channel.Live)
    (kept : ∀ item ∈ plan, ∀ tree, holds tree → holds ((copy entry item.1 item.2).run tree).1)
    (begins : holds world.tree) : after.channel.Live ∧ holds after.tree := by
  induction polls with
  | done gap => exact ⟨live_of_interference gap live, (SameFiles.of_gap gap).tree ▸ begins⟩
  | stopped gap _ last =>
      exact ⟨live_of_interference last (live_of_interference gap live),
        ((SameFiles.of_gap gap).trans (.of_gap last)).tree ▸ begins⟩
  | @worked item _ _ seen middle _ _ _ _ gap _ works _ ih =>
      obtain ⟨middleLive, _, -, answer, copied, -⟩ :=
        work.executes_saveUnit works (live_of_interference gap live)
      refine ih middleLive (fun item member => kept item (List.mem_cons_of_mem _ member)) ?_
      have keeps := kept item List.mem_cons_self seen.tree ((SameFiles.of_gap gap).tree ▸ begins)
      rwa [copied] at keeps

/-- Saving that completes copies every file, and it reports each that was not copied. -/
theorem Polls.copyEach {work : AddonWork} {entry : Path} {plan : List (Text × Reference.SourceFile)}
    {world after : World} {moves : List (Move World)}
    (polls : Polls work.addon (work.saveUnit entry) plan world moves after .completed)
    (live : world.channel.Live) :
    ∃ word, after.channel.reported = world.channel.reported ++ word ∧
      after.tree = (copyEach entry plan world.tree).1 ∧
      (work.copyFailures entry (copyEach entry plan world.tree).2).Sublist word := by
  generalize completes : StageStatus.completed = status at polls
  induction polls with
  | done gap =>
      refine ⟨[], ?_, (SameFiles.of_gap gap).tree, .slnil⟩
      rw [(reported_of_interference gap live).2, List.append_nil]
  | stopped => cases completes
  | @worked item rest world seen middle after during later status gap _ works _ ih =>
      obtain ⟨seenLive, seenReported⟩ := reported_of_interference gap live
      obtain ⟨middleLive, first, reported, answer, copied, told⟩ := work.executes_saveUnit works seenLive
      obtain ⟨second, reportedLater, tree, sublist⟩ := ih middleLive completes
      have seenTree := (SameFiles.of_gap gap).tree
      refine ⟨first ++ second, ?_, ?_⟩
      · rw [reportedLater, reported, seenReported, List.append_assoc]
      · obtain ⟨name, file⟩ := item
        unfold Indexing.copyEach
        rw [← seenTree, copied]
        cases answer with
        | ok target => exact ⟨tree, sublist.trans (List.sublist_append_right _ _)⟩
        | error cause =>
            refine ⟨tree, ?_⟩
            exact (List.singleton_sublist.2 (told cause rfl)).append sublist

/-! ## The stage -/

/-- No file that is saved is saved in the place of the marker. -/
theorem location_ne_markerPlace_of_mem_savePlan (cache : ReferenceCache) (name : Text) {tree : FileTree}
    (named : NamesFiles tree) {directories : List Path} {item : Text × Reference.SourceFile}
    (member : item ∈ AddonWork.savePlan directories tree) (other : FileTree) :
    other.location (target (cache.entry name) item.1 item.2) ≠ cache.markerPlace name other := by
  obtain ⟨directory, -, planned⟩ := List.mem_flatMap.1 member
  split at planned
  · rename_i stem isFileName
    obtain ⟨file, inDirectory, rfl⟩ := List.mem_map.1 planned
    exact location_target_ne_markerPlace named isFileName inDirectory other
  · cases planned

/-- A copy of a file that is saved leaves the marker. -/
theorem hasMarker_copy {cache : ReferenceCache} {name : Text} {valid : Bool} {tree planned : FileTree}
    (named : NamesFiles planned) {directories : List Path} {item : Text × Reference.SourceFile}
    (member : item ∈ AddonWork.savePlan directories planned) (hasMarker : cache.HasMarker name valid tree) :
    cache.HasMarker name valid ((copy (cache.entry name) item.1 item.2).run tree).1 :=
  hasMarker.of_keepsAt (keepsAt_copy (location_ne_markerPlace_of_mem_savePlan cache name named member tree))

/-- What the stage that saves files leaves when it completes: every file was copied or its copy is
reported as failed, the entry is marked, and the addon was not cancelled at the last look, if there
was one. -/
structure SavesAll (work : AddonWork) (prepared : FileTree) (world : World) (moves : List (Move World))
    (after : World) : Prop where
  tree : after.tree = ((markValid (work.cache.entry work.addon.name)).run
    (copyEach (work.cache.entry work.addon.name) (AddonWork.savePlan world.extracted prepared) prepared).1).1
  reports : ∃ word, after.channel.reported = world.channel.reported ++ word ∧
    (work.copyFailures (work.cache.entry work.addon.name)
      (copyEach (work.cache.entry work.addon.name) (AddonWork.savePlan world.extracted prepared) prepared).2).Sublist
        word
  lastLook : ∀ front last, AddonWork.savePlan world.extracted prepared = front ++ [last] →
    LastLook work.addon (work.saveUnit (work.cache.entry work.addon.name) last) 2 world moves

namespace AddonWork

variable {work : AddonWork}

/-- Save files to an entry that was prepared, and mark it as complete. -/
def saveInto (work : AddonWork) (entry : Path) : Run StageStatus := do
  work.setReference entry
  let directories ← Activity.inspect World.extracted
  let plan ← lookAt (savePlan directories)
  beginWork work.addon plan.length
  match ← work.saveEach entry plan with
  | .stopped => return .stopped
  | .completed => do
      match ← perform (markValid entry) with
      | .ok () => return .completed
      | .error cause => do
          error (some work.addon) ("Failed to mark reference directory ".toList ++
            entry.text ++ " as valid".toList) (some cause.message)
          return .completed

/-- How an execution of saving to a prepared entry goes: the files are saved between some first
steps and the marking. -/
structure SavesInto (work : AddonWork) (entry : Path) (world : World) (moves : List (Move World))
    (after : World) (status : StageStatus) (begun ended : World)
    (opening polled rest : List (Move World)) : Prop where
  moves : moves = opening ++ (polled ++ rest)
  begins : SameFiles world begun
  live : begun.channel.Live
  reports : ∃ word, begun.channel.reported = world.channel.reported ++ word
  polls : Polls work.addon (work.saveUnit entry) (savePlan world.extracted world.tree) begun polled
    ended status
  stopped : status = .stopped → SameFiles ended after
  completed : status = .completed → (∀ tree cause, (markValid entry).run ended.tree ≠ (tree, .error cause)) →
    after.tree = ((markValid entry).run ended.tree).1 ∧ rest.length = 1 ∧
      after.channel.reported = ended.channel.reported

theorem exists_savesInto {entry : Path} {world after : World} {moves : List (Move World)}
    {status : StageStatus} (live : world.channel.Live)
    (execution : Executes Interference (work.saveInto entry) world moves after (some status)) :
    ∃ begun ended opening polled rest,
      SavesInto work entry world moves after status begun ended opening polled rest := by
  obtain ⟨referring, _, rfl, toReferring, execution⟩ := executes_modify_bind_iff.1 execution
  obtain ⟨listing, _, rfl, toListing, execution⟩ := executes_inspect_bind_iff.1 execution
  obtain ⟨planning, _, rfl, toPlanning, execution⟩ := executes_inspect_bind_iff.1 execution
  obtain ⟨beginning, _, begun, ⟨⟩, rfl, begins, execution⟩ := execution.bind_some
  obtain ⟨polled, rest, ended, saved, rfl, saves, execution⟩ := execution.bind_some
  -- Nothing before the first look changes files.
  have refers : SameFiles referring (referring.updateProgress work.addon (·.setReference entry)) :=
    ⟨rfl, rfl⟩
  have listed : SameFiles world listing :=
    (SameFiles.of_gap toReferring).trans (refers.trans (.of_gap toListing))
  have planned := listed.trans (.of_gap toPlanning)
  have same := planned.trans (sameFiles_of_executes (sameFiles_beginWork _) begins)
  obtain ⟨referringLive, referringReported⟩ := reported_of_interference toReferring live
  obtain ⟨listingLive, listingReported⟩ := reported_of_interference toListing
    (show (referring.updateProgress work.addon (·.setReference entry)).channel.Live from referringLive)
  obtain ⟨planningLive, planningReported⟩ := reported_of_interference toPlanning listingLive
  obtain ⟨_, word, -, begunLive, begunReported, -⟩ :=
    (concerns_beginWork _).reports.tells _ _ _ _ begins planningLive
  have reported : begun.channel.reported = world.channel.reported ++ word := by
    rw [begunReported, planningReported, listingReported]
    exact congrArg (· ++ word) referringReported
  obtain ⟨_, _, -, endedLive, -⟩ := (concerns_saveEach entry _).reports.tells _ _ _ _ saves begunLive
  rw [listed.extracted, planned.tree, saveEach_eq] at saves
  have polls := polls_of_executes saves
  have moves : ∀ rest, (referring, referring.updateProgress work.addon (·.setReference entry)) ::
      (listing, listing) :: (planning, planning) :: (beginning ++ (polled ++ rest)) =
        ((referring, referring.updateProgress work.addon (·.setReference entry)) ::
          (listing, listing) :: (planning, planning) :: beginning) ++ (polled ++ rest) := by simp
  cases saved with
  | stopped =>
      obtain ⟨rfl, answered, last⟩ := executes_pure_iff.1 execution
      cases answered
      exact ⟨begun, ended, _, polled, [],
        { moves := moves []
          begins := same
          live := begunLive
          reports := ⟨word, reported⟩
          polls
          stopped := fun _ => .of_gap last
          completed := nofun }⟩
  | completed =>
      obtain ⟨marking, rest, rfl, toMarking, execution⟩ := executes_perform_bind_iff.1 execution
      have marks := (SameFiles.of_gap toMarking).tree
      have answers : status = .completed ∧
          ((∀ tree cause, (markValid entry).run marking.tree ≠ (tree, .error cause)) →
            after.tree = ((markValid entry).run marking.tree).1 ∧ rest = [] ∧
              after.channel.reported = ended.channel.reported) := by
        obtain ⟨markingLive, markingReported⟩ := reported_of_interference toMarking endedLive
        generalize marked : (markValid entry).run marking.tree = found at execution ⊢
        obtain ⟨tree, answer⟩ := found
        cases answer with
        | ok done =>
            obtain ⟨rfl, answered, last⟩ := executes_pure_iff.1 execution
            cases answered
            refine ⟨rfl, fun _ => ⟨(SameFiles.of_gap last).tree, rfl, ?_⟩⟩
            rw [(reported_of_interference last (show ({ marking with tree } : World).channel.Live
              from markingLive)).2]
            exact markingReported
        | error cause =>
            obtain ⟨_, _, _, _, -, -, execution⟩ := execution.bind_some
            obtain ⟨-, answered, -⟩ := executes_pure_iff.1 execution
            cases answered
            exact ⟨rfl, fun noError => absurd rfl (noError tree cause)⟩
      obtain ⟨rfl, marked⟩ := answers
      rw [marks] at marked
      exact ⟨begun, ended, _, polled, _,
        { moves := moves _
          begins := same
          live := begunLive
          reports := ⟨word, reported⟩
          polls
          stopped := nofun
          completed := fun _ noError => by
            obtain ⟨tree, rfl, unreported⟩ := marked noError
            exact ⟨tree, rfl, unreported⟩ }⟩

/-- Saving that stops leaves the marker of an entry that is not complete. -/
theorem SavesInto.stops {world after begun ended : World} {moves opening polled rest : List (Move World)}
    (into : SavesInto work (work.cache.entry work.addon.name) world moves after .stopped begun ended opening
      polled rest) (named : NamesFiles world.tree)
    (unmarked : work.cache.HasMarker work.addon.name false world.tree) :
    work.cache.HasMarker work.addon.name false after.tree ∧ savePlan world.extracted world.tree ≠ [] ∧
      ∃ before seen, polled = before ++ [(seen, seen)] ∧ ¬ Uncancelled work.addon seen := by
  have begunUnmarked : work.cache.HasMarker work.addon.name false begun.tree := by
    rw [into.begins.tree]
    exact unmarked
  obtain ⟨-, endedUnmarked⟩ := @Polls.keeps work _ _ _ _ _ _ (work.cache.HasMarker work.addon.name false)
    into.polls into.live (fun item member other => hasMarker_copy named member) begunUnmarked
  obtain ⟨before, seen, split, cancelled, -⟩ := into.polls.cancelled_of_stopped
  refine ⟨?_, fun none => ?_, before, seen, split, cancelled⟩
  · rw [(into.stopped rfl).tree]
    exact endedUnmarked
  · have polls := into.polls
    rw [none] at polls
    cases polls.of_nil.2

/-- Saving that completes leaves what copies of all files and the marking leave. -/
theorem SavesInto.completes {world after begun ended : World} {moves opening polled rest : List (Move World)}
    (into : SavesInto work (work.cache.entry work.addon.name) world moves after .completed begun ended opening
      polled rest) (named : NamesFiles world.tree)
    (unmarked : work.cache.HasMarker work.addon.name false world.tree) :
    work.cache.HasMarker work.addon.name true after.tree ∧ rest.length = 1 ∧
      after.tree = ((markValid (work.cache.entry work.addon.name)).run (copyEach
        (work.cache.entry work.addon.name) (savePlan world.extracted world.tree) world.tree).1).1 ∧
      ∃ word, after.channel.reported = world.channel.reported ++ word ∧
        (work.copyFailures (work.cache.entry work.addon.name) (copyEach (work.cache.entry work.addon.name)
          (savePlan world.extracted world.tree) world.tree).2).Sublist word := by
  have begunUnmarked : work.cache.HasMarker work.addon.name false begun.tree := by
    rw [into.begins.tree]
    exact unmarked
  obtain ⟨-, endedUnmarked⟩ := @Polls.keeps work _ _ _ _ _ _ (work.cache.HasMarker work.addon.name false)
    into.polls into.live (fun item member other => hasMarker_copy named member) begunUnmarked
  obtain ⟨marked, marks, isMarked⟩ := exists_of_markValid endedUnmarked
  obtain ⟨left, length, unreported⟩ := into.completed rfl fun tree cause failed => by
    rw [marks] at failed
    cases failed
  obtain ⟨more, reportedMore, tree, sublist⟩ := into.polls.copyEach into.live
  obtain ⟨word, reported⟩ := into.reports
  rw [into.begins.tree] at tree sublist
  refine ⟨?_, length, by rw [left, tree], word ++ more, ?_, sublist.trans (List.sublist_append_right _ _)⟩
  · rw [left, marks]
    exact isMarked
  · rw [unreported, reportedMore, reported, List.append_assoc]

/-- The stage that saves files leaves an entry that is marked as complete exactly if it completes. It
stops if the entry cannot be prepared or a look finds the addon cancelled, and it completes if there
is nothing to copy. -/
theorem markedValid_iff_of_save {world after : World} {moves : List (Move World)}
    {result : Option StageStatus} (formed : world.tree.WellFormed) (live : world.channel.Live)
    (execution : Executes Interference work.save world moves after result) :
    ∃ status, result = some status ∧
      (work.cache.MarkedValid work.addon.name after.tree ↔ status = .completed) ∧
      match (work.cache.prepare work.addon.name).run world.tree with
      | (_, .error _) => status = .stopped
      | (prepared, .ok _) =>
          (savePlan world.extracted prepared = [] → status = .completed) ∧
          (status = .stopped → ∃ move ∈ moves, ¬ Uncancelled work.addon move.1) ∧
          (status = .completed → SavesAll work prepared world moves after) := by
  have follow := work.stages_save.follow.of_traces execution.1
  have whole := execution.2
  obtain ⟨status, _, rfl, -⟩ := work.stages_save.reports.tells _ _ _ _ execution live
  refine ⟨status, rfl, ?_⟩
  obtain ⟨starting, middle, ending, inside, inStage⟩ := exists_inStage execution
  obtain rfl := inStage.moves
  have finishes : SameFiles middle after :=
    (SameFiles.of_gap inStage.ends).trans ((SameFiles.submit _ _).trans (.of_gap inStage.rests))
  obtain ⟨preparing, rest, rfl, toPreparing, inner⟩ := executes_perform_bind_iff.1 inStage.executes
  have prepares : SameFiles world preparing :=
    (SameFiles.of_gap inStage.starts).trans ((SameFiles.submit _ _).trans (.of_gap toPreparing))
  rw [← prepares.tree] at formed ⊢
  generalize prepared : (work.cache.prepare work.addon.name).run preparing.tree = answer at inner whole follow ⊢
  obtain ⟨tree, answer⟩ := answer
  cases answer with
  | error cause =>
      obtain ⟨_, _, reported, _, -, reporting, answering⟩ := inner.bind_some
      obtain ⟨-, same, toMiddle⟩ := executes_pure_iff.1 answering
      cases same
      have left : after.tree = tree :=
        finishes.tree.trans ((SameFiles.of_gap toMiddle).tree.trans
          (sameFiles_of_executes (sameFiles_error _ _ _) reporting).tree)
      rw [left]
      exact ⟨⟨fun marked => absurd marked (not_markedValid_of_prepare_error prepared), nofun⟩, rfl⟩
  | ok entry =>
      obtain ⟨rfl, unmarked⟩ := hasMarker_of_prepare prepared
      have named := namesFiles_of_prepare formed prepared
      obtain ⟨startingLive, -⟩ := reported_of_interference inStage.starts live
      obtain ⟨preparingLive, preparingReported⟩ :=
        reported_of_interference toPreparing (startingLive.submit (.stageStarted work.addon .saving))
      change Executes Interference (work.saveInto _) { preparing with tree } rest middle _ at inner
      obtain ⟨begun, ended, opening, polled, others, into⟩ :=
        exists_savesInto (show ({ preparing with tree } : World).channel.Live from preparingLive) inner
      obtain rfl := into.moves
      rw [← prepares.extracted, finishes.tree]
      cases status with
      | stopped =>
          obtain ⟨unmarked, something, before, seen, rfl, cancelled⟩ := into.stops named unmarked
          rw [unmarked.markedValid_iff]
          exact ⟨⟨nofun, nofun⟩, fun none => absurd none something,
            fun _ => ⟨(seen, seen), by simp, cancelled⟩, nofun⟩
      | completed =>
          obtain ⟨isMarked, length, left, word, reported, sublist⟩ := into.completes named unmarked
          rw [isMarked.markedValid_iff]
          refine ⟨⟨fun _ => rfl, fun _ => rfl⟩, fun _ => rfl, nofun, fun _ => ⟨?_, ?_, fun front last split => ?_⟩⟩
          · rw [finishes.tree, left, ← prepares.extracted]
          · have middleLive : middle.channel.Live := (follows_of_chain inner.2 fun move member => follow move
              (List.mem_cons_of_mem _ (List.mem_append_left _ (List.mem_cons_of_mem _ member)))).live preparingLive
            rw [← prepares.extracted]
            refine ⟨_, inStage.reported live middleLive (reported.trans (congrArg (· ++ word) preparingReported)), ?_⟩
            exact (sublist.trans (List.sublist_append_left _ _)).cons _
          · have polls := into.polls
            rw [show savePlan preparing.extracted tree = front ++ [last] from prepares.extracted ▸ split] at polls
            have moves : ∀ first second third : Move World, first :: (second :: (opening ++ (polled ++ others)) ++
                [third]) = (first :: second :: opening) ++ (polled ++ (others ++ [third])) := by simp
            rw [moves] at whole follow ⊢
            have look := polls.lastLook whole follow
            rwa [List.length_append, length] at look

end AddonWork

/-- The files of the extracted archive are saved and the entry is marked as complete. -/
theorem leftOver_marked_valid :
    ∃ moves, Executes Interference failingWork.save leftOver moves (failingWork.save.run leftOver).1
        (some .completed) ∧
      failingWork.cache.MarkedValid failingWork.addon.name (failingWork.save.run leftOver).1.tree ∧
      ∃ prepared, AddonWork.savePlan leftOver.extracted prepared ≠ [] ∧
        SavesAll failingWork prepared leftOver moves (failingWork.save.run leftOver).1 := by
  obtain ⟨moves, execution⟩ : ∃ moves, Executes Interference failingWork.save leftOver moves _ _ :=
    executes_run failingWork.save leftOver
  obtain ⟨status, same, marked, cases⟩ :=
    AddonWork.markedValid_iff_of_save laidOut_leftOver.formed EventChannel.live_new execution
  obtain rfl : status = .completed := by
    have ended : (failingWork.save.run leftOver).2 = some .completed := by decide +kernel
    rw [ended] at same
    exact (Option.some.inj same).symm
  rw [same] at execution
  refine ⟨moves, execution, marked.2 rfl, ?_⟩
  cases prepares : (failingWork.cache.prepare failingWork.addon.name).run leftOver.tree with
  | mk prepared answer =>
      rw [prepares] at cases
      cases answer with
      | error cause => cases cases
      | ok entry =>
          refine ⟨prepared, ?_, cases.2.2 rfl⟩
          have files : prepared = ((failingWork.cache.prepare failingWork.addon.name).run leftOver.tree).1 := by
            rw [prepares]
          rw [files]
          decide +kernel

/-- A world in which the addon is cancelled and no archive of it was extracted. -/
def cancelledWorld : World where
  tree := { entries := [(["ref".toList], .directory)] }
  handles := [failingWork.addon]
  progress := [{ cancelled := true }]

/-- Where there is nothing to copy, the entry of an addon that was cancelled before is marked as
complete. -/
theorem cancelled_save_marks_valid :
    ¬ ∀ (work : AddonWork) (world after : World) (moves : List (Move World)) (result : Option StageStatus),
      world.tree.WellFormed → world.channel.Live →
        Executes Interference work.save world moves after result →
          ¬ Uncancelled work.addon world → ¬ work.cache.MarkedValid work.addon.name after.tree := by
  intro claimed
  obtain ⟨moves, execution⟩ : ∃ moves, Executes Interference failingWork.save cancelledWorld moves _ _ :=
    executes_run failingWork.save cancelledWorld
  refine claimed failingWork cancelledWorld _ moves _
    (wellFormed_of_entries (by decide +kernel) (by decide +kernel) (by decide +kernel))
    EventChannel.live_new execution (by decide +kernel) ⟨Reference.markerText true, ?_, by decide⟩
  decide +kernel

end AddonIndex.Indexing
