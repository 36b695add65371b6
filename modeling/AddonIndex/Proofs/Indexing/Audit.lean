import AddonIndex.Proofs.Indexing.Account
import AddonIndex.Proofs.Indexing.Course
import AddonIndex.Proofs.WorkerPool
import Mathlib.Data.List.Perm.Basic

/-!
# Every unit is accounted for

Among the units that a stage lists each one that is finished is worked on in one step, counted once, told of once,
and done once. A unit is not finished only if the addon is found cancelled, or a worker is refused, or its worker is
aborted in it or in an earlier unit of its bucket. So the counters, the events and the progress of a stage agree,
however the workers take turns. What else a stage tells, and what it does to files besides, comes before and after
the work on units.
-/

namespace AddonIndex.Indexing

open Activity

/-!
## The shares of workers

Units that are dealt out make the entries of one share for each worker that is started. If a worker is refused
the units of its bucket and of later ones wait. Otherwise every worker that was aborted is told of, by a name that
no other worker has.
-/

section Crews

variable {addon : Handle} {job : Job SizedFile}

/-- A worker with its share. -/
structure Crew where
  worker : Text
  share : Share SizedFile

/-- What is told of a worker that was aborted. -/
def abortReport (addon : Handle) (worker : Text) : Event :=
  .error (some addon) ("Worker thread '".toList ++ worker ++ "' panicked while indexing ".toList ++ addon.name) none

/-- The reports of workers that were aborted. If a worker was refused there are none. -/
def abortReports (addon : Handle) (crews : List Crew) : Option WorkerRefused → List Event
  | some _ => []
  | none => (crews.filter fun crew => crew.share.isBroken).map fun crew => abortReport addon crew.worker

/-- The answer of a pool of which a worker was refused, or none. -/
def answerOf : Option WorkerRefused → Except RunFailure Unit
  | some refusal => .error (.workerRefused refusal)
  | none => .ok ()

/-- Whether units are dealt out to workers, who do what the job says with them. -/
structure Dealt (job : Job SizedFile) (units : List SizedFile) (refusal : Option WorkerRefused)
    (crews : List Crew) (waiting : List SizedFile) : Prop where
  units : ((crews.flatMap fun crew => crew.share.units) ++ waiting).Perm units
  names : (crews.map Crew.worker).Nodup
  sound : ∀ crew ∈ crews, crew.share.Sound job
  started : refusal = none → waiting = []

/-- The buckets that are given to workers, and what waits if one of them is refused. -/
theorem exists_waiting {pool : WorkerPool} {refusals : Refusals} {units : List SizedFile}
    {started : List (Text × List SizedFile)} {refusal : Option WorkerRefused}
    (starts : WorkerPool.start refusals (pool.assignments 1 (balance SizedFile.size pool.workers units)) =
      (started, refusal)) :
    (started.map Prod.fst).Nodup ∧ ∃ waiting, (started.flatMap Prod.snd ++ waiting).Perm units ∧
      (refusal = none → waiting = []) := by
  have begins : started <+: pool.assignments 1 (balance SizedFile.size pool.workers units) := by
    rw [show started = _ from (congrArg Prod.fst starts).symm]
    exact WorkerPool.prefix_of_start _ _
  constructor
  · exact (pool.nodup_assignments 1 _).sublist (begins.sublist.map Prod.fst)
  rcases begins with ⟨others, whole⟩
  refine ⟨others.flatMap Prod.snd, ?_, ?_⟩
  · rw [← List.flatMap_append, whole, WorkerPool.flatMap_assignments]
    exact flatten_balance_perm _ _ _
  · rintro rfl
    rw [WorkerPool.start_eq_of_none starts] at whole
    rw [List.append_right_eq_self.1 whole, List.flatMap_nil]

/-- The workers that a pool reports as aborted are those whose shares are broken. -/
theorem aborted_eq {threads : List (Marked (Text × List SizedFile) (Posting SizedFile))}
    {share : Marked (Text × List SizedFile) (Posting SizedFile) → Share SizedFile}
    (ended : ∀ one ∈ threads, one.result.isNone = (share one).isBroken) :
    ((threads.map Marked.job).zip (threads.map fun one => one.result.isSome)).filterMap
        (fun (assignment, ended) => if ended then none else some assignment.1) =
      ((threads.map fun one => Crew.mk one.job.1 (share one)).filter fun crew => crew.share.isBroken).map
        Crew.worker := by
  induction threads with
  | nil => rfl
  | cons first rest ih =>
      rcases List.forall_mem_cons.1 ended with ⟨endedFirst, endedRest⟩
      have later := ih endedRest
      simp only [List.map_cons, List.zip_cons_cons, List.filterMap_cons, List.filter_cons, ← endedFirst]
      cases first.result with
      | none => simpa using later
      | some _ => simpa using later

namespace AddonWork

variable {work : AddonWork}

theorem books_reportAborted {job : Job SizedFile} {workers : List Text}
    {goal : Option Unit → List (Posting SizedFile) → Prop}
    (reached : goal (some ()) (workers.map fun worker => .told (abortReport work.addon worker))) :
    Books job work.addon (work.reportAborted workers) goal := by
  induction workers generalizing goal with
  | nil => exact marks_pure reached
  | cons worker rest ih =>
      apply Marks.bind
      apply books_error
      exact ih reached

/-- Units that are shared out make the entries of the shares in some order, and then the aborted workers are told
of. -/
theorem books_shareOut {what : Text} {files : List Path} {doUnits : List SizedFile → Run Unit}
    {unit : SizedFile → Run Unit}
    (inTurn : ∀ bucket, doUnits bucket = eachUnit work.addon unit bucket >>= fun _ => pure ())
    (each : ∀ file, Books job work.addon (unit file) (Treats job work.addon file)) :
    Books job work.addon (work.shareOut what files doUnits) fun result entries =>
      ∃ units refusal crews waiting shared, units.map SizedFile.path = files ∧ Dealt job units refusal crews waiting ∧
        result = some (answerOf refusal) ∧
        shared.Perm (crews.flatMap fun crew => crew.share.entries job work.addon) ∧
        entries = shared ++ (abortReports work.addon crews refusal).map Posting.told := by
  unfold shareOut
  apply Marks.bind
  apply @books_act _ _ _ job _ (fun world => (files.map fun path => SizedFile.mk path (measure world.tree path), world))
    fun _ => none
  · exact fun world => ⟨still_refl world, fun ready => ⟨ready, rfl⟩⟩
  intro world
  have measured : (files.map fun path => SizedFile.mk path (measure world.tree path)).map SizedFile.path = files := by
    rw [List.map_map]
    exact List.map_id _
  dsimp only
  generalize (files.map fun path => SizedFile.mk path (measure world.tree path)) = units at measured
  apply Marks.bind
  unfold WorkerPool.run
  generalize starts : WorkerPool.start work.environment.refusals
    (work.environment.pool.assignments 1 (balance SizedFile.size work.environment.pool.workers units)) = starting
  obtain ⟨started, refusal⟩ := starting
  rcases exists_waiting starts with ⟨names, waiting, whole, startsAll⟩
  apply Marks.bind
  have threads : ∀ assignment ∈ started, Books job work.addon (do
      note (workerBlock what assignment.1 assignment.2)
      doUnits assignment.2) fun result entries => ∃ share : Share SizedFile, share.units = assignment.2 ∧
        share.Sound job ∧ result.isNone = share.isBroken ∧ entries = share.entries job work.addon := by
    intro assignment _
    apply (skips_note _).books_bind
    intro _
    rw [inTurn]
    apply Marks.bind
    apply (books_eachUnit each assignment.2).mono
    rintro _ _ ⟨share, units, sound, rfl, rfl⟩
    cases ended : share.ending.status? with
    | none =>
        refine ⟨share, units, sound, ?_, rfl⟩
        rw [Share.isBroken, ended]
        rfl
    | some status =>
        refine marks_pure ⟨share, units, sound, ?_, List.append_nil _⟩
        rw [Share.isBroken, ended]
        rfl
  apply marks_together threads
  intro records entries same made perm
  choose! share isShare using made
  let crews := records.map fun record => Crew.mk record.job.1 (share record)
  have dealt : Dealt job units refusal crews waiting := by
    refine ⟨?_, ?_, ?_, startsAll⟩
    · refine List.Perm.trans (List.Perm.of_eq (congrArg (· ++ waiting) ?_)) whole
      rw [← same, List.flatMap_map, List.flatMap_map]
      exact List.flatMap_congr fun record member => (isShare record member).1
    · have sameNames : crews.map Crew.worker = started.map Prod.fst := by
        rw [← same, List.map_map, List.map_map]
        rfl
      rw [sameNames]
      exact names
    · intro crew member
      rcases List.mem_map.1 member with ⟨record, inRecords, rfl⟩
      exact (isShare record inRecords).2.1
  have shared : entries.Perm (crews.flatMap fun crew => crew.share.entries job work.addon) := by
    refine perm.trans (List.Perm.of_eq ?_)
    rw [List.flatMap_map]
    exact List.flatMap_congr fun record member => (isShare record member).2.2.2
  cases refusal with
  | some refusal =>
      apply marks_pure
      apply marks_pure
      exact ⟨units, some refusal, crews, waiting, entries, measured, dealt, rfl, shared, by simp [abortReports]⟩
  | none =>
      apply marks_pure
      apply Marks.bind
      apply books_reportAborted
      apply marks_pure
      refine ⟨units, none, crews, waiting, entries, measured, dealt, rfl, shared, ?_⟩
      rw [← same, aborted_eq fun record member => (isShare record member).2.2.1]
      simp [abortReports, crews, Function.comp_def]

end AddonWork

end Crews

variable {γ : Type} {addon : Handle} {job : Job γ} {world after : World} {moves : List (Move World)}
  {shares : List (Share γ)} {units waiting : List γ}

/-! ## The entries of shares -/

/-- The unit that an entry shows to be worked on, and what comes of it. -/
def Posting.worked? : Posting γ → Option (γ × Option Bool)
  | worked unit result => some (unit, result)
  | _ => none

/-- The change that an entry shows of the files, if it is not for a unit. -/
def Posting.arranged? : Posting γ → Option (FileTree × FileTree)
  | arranged before after => some (before, after)
  | _ => none

/-- The unit in which a worker is aborted, if it is. -/
def Ending.worked : Ending γ → List (γ × Option Bool)
  | broken unit _ => [(unit, none)]
  | _ => []

/-- The units of a share that are worked on, and what comes of each. -/
def Share.worked (share : Share γ) : List (γ × Option Bool) :=
  share.finished.map (fun item => (item.unit, some item.succeeded)) ++ share.ending.worked

theorem filterMap_entries {β : Type} (share : Share γ) (part : Posting γ → Option β) :
    (share.entries job addon).filterMap part =
      (share.finished.flatMap fun item => (item.entries job addon).filterMap part) ++
        (share.ending.entries job).filterMap part := by
  unfold Share.entries
  rw [List.filterMap_append, List.filterMap_flatMap]

theorem filterMap_notes {β : Type} (directories : List Path) {part : Posting γ → Option β}
    (unnoted : ∀ directory, part (.noted directory) = none) :
    (directories.map Posting.noted).filterMap part = [] := by
  rw [List.filterMap_map]
  exact List.filterMap_eq_nil_iff.2 fun directory _ => unnoted directory

/-- What is entered after a unit was worked on is entered for finished units alone. -/
theorem filterMap_entries_of_unworked {β : Type} (share : Share γ) {part : Posting γ → Option β}
    (unnoted : ∀ directory, part (.noted directory) = none) (unworked : ∀ unit result, part (.worked unit result) = none)
    (unstopped : part .stopped = none) :
    (share.entries job addon).filterMap part = share.finished.flatMap fun item =>
      [Posting.counted item.succeeded, .told item.event, .advanced item.number,
        .told (.currentProgress addon item.number)].filterMap part := by
  have skips : ∀ unit result (rest : List (Posting γ)),
      ((job.notes unit).map Posting.noted ++ Posting.worked unit result :: rest).filterMap part = rest.filterMap part := by
    intro unit result rest
    rw [List.filterMap_append, filterMap_notes _ unnoted, List.filterMap_cons, unworked]
    rfl
  have ended : (share.ending.entries job).filterMap part = [] := by
    cases share.ending with
    | completed => rfl
    | stopped unit rest => rw [Ending.entries, List.filterMap_cons, unstopped, List.filterMap_nil]
    | broken unit rest => exact skips unit none []
  rw [filterMap_entries, ended, List.append_nil]
  exact List.flatMap_congr fun item _ => skips item.unit _ _

theorem filterMap_told_entries (share : Share γ) : (share.entries job addon).filterMap Posting.told? =
    share.finished.flatMap fun item => item.event :: [.currentProgress addon item.number] :=
  filterMap_entries_of_unworked share (fun _ => rfl) (fun _ _ => rfl) rfl

theorem filterMap_counted_entries (share : Share γ) :
    (share.entries job addon).filterMap Posting.counted? = share.finished.map Finished.succeeded := by
  rw [filterMap_entries_of_unworked share (fun _ => rfl) (fun _ _ => rfl) rfl, List.map_eq_flatMap]
  rfl

theorem filterMap_advanced_entries (share : Share γ) :
    (share.entries job addon).filterMap Posting.advanced? = share.finished.map Finished.number := by
  rw [filterMap_entries_of_unworked share (fun _ => rfl) (fun _ _ => rfl) rfl, List.map_eq_flatMap]
  rfl

theorem filterMap_arranged_entries (share : Share γ) :
    (share.entries job addon).filterMap Posting.arranged? = [] := by
  rw [filterMap_entries_of_unworked share (fun _ => rfl) (fun _ _ => rfl) rfl]
  exact List.flatMap_eq_nil_iff.2 fun _ _ => rfl

theorem filterMap_worked_entries (share : Share γ) :
    (share.entries job addon).filterMap Posting.worked? = share.worked := by
  have works : ∀ unit result (rest : List (Posting γ)),
      ((job.notes unit).map Posting.noted ++ Posting.worked unit result :: rest).filterMap Posting.worked? =
        (unit, result) :: rest.filterMap Posting.worked? := by
    intro unit result rest
    rw [List.filterMap_append, filterMap_notes _ fun _ => rfl]
    rfl
  rw [filterMap_entries, Share.worked, List.map_eq_flatMap]
  congr 1
  · exact List.flatMap_congr fun item _ => works item.unit _ _
  · cases share.ending with
    | broken unit rest => exact works unit none []
    | _ => rfl

/-- Directories are noted for each unit that is worked on. -/
theorem filterMap_noted_entries (share : Share γ) :
    (share.entries job addon).filterMap Posting.noted? = share.worked.flatMap fun item => job.notes item.1 := by
  have notes : ∀ unit (rest : List (Posting γ)), rest.filterMap Posting.noted? = [] →
      ((job.notes unit).map Posting.noted ++ rest).filterMap Posting.noted? = job.notes unit := by
    intro unit rest none
    rw [List.filterMap_append, List.filterMap_map, none, List.append_nil]
    exact List.filterMap_some
  rw [filterMap_entries, Share.worked, List.flatMap_append, List.flatMap_map]
  congr 1
  · exact List.flatMap_congr fun item _ => notes item.unit _ rfl
  · cases share.ending with
    | broken unit rest => exact (notes unit _ rfl).trans (List.append_nil _).symm
    | _ => rfl

theorem isLater_of_mem_entries {share : Share γ} {entry : Posting γ} (member : entry ∈ share.entries job addon) :
    entry.IsLater := by
  rintro units rfl
  rcases List.mem_append.1 member with inFinished | atEnd
  · rcases List.mem_flatMap.1 inFinished with ⟨item, -, member⟩
    simp [Finished.entries] at member
  · cases ended : share.ending <;> simp [ended, Ending.entries] at atEnd

/-! ## The account of a stage -/

/-- The finished units of shares. -/
abbrev finishedIn (shares : List (Share γ)) : List (Finished γ) := shares.flatMap Share.finished

/-- Whether moves consist of one step on a unit for each that is worked on, with what comes of it, and others. No
other one changes files or cancels an addon, but for the given changes of files. -/
def StepsOn (job : Job γ) (worked : List (γ × Option Bool)) (arrangements : List (FileTree × FileTree))
    (moves : List (Move World)) : Prop :=
  ∃ (steps : List ((γ × Option Bool) × Move World)) (rest : List (Move World)),
    moves.Perm (steps.map Prod.snd ++ rest) ∧ steps.map Prod.fst = worked ∧
    (∀ step ∈ steps, step.2.2 = job.step step.1.1 step.2.1 ∧ job.result step.1.1 step.2.1 = step.1.2) ∧
    ∀ move ∈ rest, Still move ∨ (move.1.tree, move.2.tree) ∈ arrangements

/-- Whether a stage accounts for the units that it lists: what is told, with other events besides, what is counted,
and what is done are that of the finished units, each once, and each unit that is worked on has a step of its own. -/
structure Accounted (job : Job γ) (addon : Handle) (units : List γ) (shares : List (Share γ)) (waiting : List γ)
    (others : List Event) (arrangements : List (FileTree × FileTree)) (word : List Event) (world : World)
    (moves : List (Move World)) (after : World) : Prop where
  whole : (shares.flatMap Share.units ++ waiting).Perm units
  sound : ∀ share ∈ shares, share.Sound job
  steps : ∃ worked, worked.Perm (shares.flatMap Share.worked) ∧ StepsOn job worked arrangements moves
  reported : after.channel.reported = world.channel.reported ++ word
  noted : ∃ directories, after.extracted = world.extracted ++ directories ∧
    directories.Perm ((shares.flatMap Share.worked).flatMap fun item => job.notes item.1)
  events : word.Perm (others ++ ((finishedIn shares).map Finished.event ++
    (List.range' 1 (finishedIn shares).length).map (Event.currentProgress addon)))
  tally : after.tally = ((finishedIn shares).map Finished.succeeded).foldl job.record world.tally
  current : (after.progressOf addon).current = (finishedIn shares).length
  total : (after.progressOf addon).total = units.length
  stopped : ∀ share ∈ shares, ∀ unit rest, share.ending = .stopped unit rest → ¬ Uncancelled addon after

/-- Whether a stage lists no units: it tells the given events, and that is all. -/
structure Unlisted (addon : Handle) (word : List Event) (arrangements : List (FileTree × FileTree))
    (world : World) (moves : List (Move World)) (after : World) : Prop where
  moves : ∀ move ∈ moves, Still move ∨ (move.1.tree, move.2.tree) ∈ arrangements
  reported : after.channel.reported = world.channel.reported ++ word
  extracted : after.extracted = world.extracted
  tally : after.tally = world.tally
  current : (after.progressOf addon).current = (world.progressOf addon).current
  total : (after.progressOf addon).total = (world.progressOf addon).total

/-! ## Moves and their entries -/

/-- Whether an entry does not concern the units of a stage. -/
def Posting.isAside : Posting γ → Bool
  | told _ | stopped | looked _ | arranged _ _ => true
  | _ => false

/-- A move that is no step on a unit is one of the others. -/
theorem StepsOn.aside {worked : List (γ × Option Bool)} {arrangements : List (FileTree × FileTree)} {move : Move World}
    (stepsOn : StepsOn job worked arrangements moves) (first : List (FileTree × FileTree))
    (isOther : Still move ∨ (move.1.tree, move.2.tree) ∈ first) :
    StepsOn job worked (first ++ arrangements) (move :: moves) := by
  rcases stepsOn with ⟨steps, rest, perm, same, shown, others⟩
  refine ⟨steps, move :: rest, (perm.cons move).trans List.perm_middle.symm, same, shown, ?_⟩
  intro other member
  rcases List.mem_cons.1 member with rfl | later
  · exact isOther.imp_right (List.mem_append_left _)
  · exact (others other later).imp_right (List.mem_append_right _)

/-- The moves that are entered as steps on units, and the others. -/
theorem stepsOn_of_enters {labels : List (Option (Posting γ))} (enters : List.Forall₂ (Enters job addon) labels moves) :
    StepsOn job (labels.reduceOption.filterMap Posting.worked?) (labels.reduceOption.filterMap Posting.arranged?) moves := by
  induction enters with
  | nil => exact ⟨[], [], .refl _, rfl, List.forall_mem_nil _, List.forall_mem_nil _⟩
  | @cons label move labels moves made _ ih =>
      rcases label with _ | entry
      · exact ih.aside [] (.inl made.1)
      rw [List.reduceOption_cons_of_some]
      cases entry with
      | worked unit result =>
          rcases ih with ⟨steps, rest, perm, same, shown, others⟩
          exact ⟨((unit, result), move) :: steps, rest, perm.cons move, congrArg _ same,
            List.forall_mem_cons.2 ⟨made.1, shown⟩, others⟩
      | arranged before after =>
          apply ih.aside [(before, after)]
          rcases made.1 with ⟨rfl, rfl⟩
          exact .inr List.mem_cons_self
      | looked seen => exact ih.aside [] (.inl made.1.2)
      | advanced current => exact ih.aside [] (.inl made.1.2)
      | stopped => exact ih.aside [] (.inl made.1.2)
      | begun units => exact ih.aside [] (.inl made.1)
      | noted directory => exact ih.aside [] (.inl made.1)
      | counted succeeded => exact ih.aside [] (.inl made.1)
      | told event => exact ih.aside [] (.inl made.1)

/-- Whether a part of a run makes the given entries. -/
structure Booked (job : Job γ) (addon : Handle) (entries : List (Posting γ)) (world : World)
    (moves : List (Move World)) (after : World) : Prop where
  enters : ∃ labels, List.Forall₂ (Enters job addon) labels moves ∧ labels.reduceOption = entries
  chain : Chain Interference world moves after
  ready : Ready addon world
  follow : ∀ move ∈ moves, Follows move.1 move.2

/-- What the entries of an activity reach holds of its executions. -/
theorem Books.reached {α : Type} {activity : Run α} {goal : Option α → List (Posting γ) → Prop} {result : Option α}
    (books : Books job addon activity goal) (follow : Always Follows activity) (ready : Ready addon world)
    (execution : Executes Interference activity world moves after result) :
    ∃ entries, Booked job addon entries world moves after ∧ goal result entries := by
  rcases books moves result execution.1 fun _ _ => trivial with ⟨labels, enters, reached⟩
  exact ⟨_, ⟨⟨labels, enters, rfl⟩, execution.2, ready, follow.of_traces execution.1⟩, reached⟩

/-- Each entry has its move. -/
theorem Booked.exists_move {entries : List (Posting γ)} {entry : Posting γ}
    (booked : Booked job addon entries world moves after) (member : entry ∈ entries) :
    ∃ move ∈ moves, entry.Shows job addon move := by
  rcases booked.enters with ⟨labels, enters, rfl⟩
  clear booked
  induction enters with
  | nil => cases member
  | @cons label move labels moves made _ ih =>
      rcases label with _ | first
      · rcases ih member with ⟨other, inMoves, shows⟩
        exact ⟨other, List.mem_cons_of_mem _ inMoves, shows⟩
      rw [List.reduceOption_cons_of_some] at member
      rcases List.mem_cons.1 member with rfl | later
      · exact ⟨move, List.mem_cons_self, made.1⟩
      · rcases ih later with ⟨other, inMoves, shows⟩
        exact ⟨other, List.mem_cons_of_mem _ inMoves, shows⟩

/-- Whoever is found cancelled by a move stays so. -/
theorem cancelled_after {move : Move World} (member : move ∈ moves) (chain : Chain Interference world moves after)
    (follow : ∀ move ∈ moves, Follows move.1 move.2) (cancelled : ¬ Uncancelled addon move.1) :
    ¬ Uncancelled addon after := by
  rcases List.append_of_mem member with ⟨before, later, rfl⟩
  rcases chain_append_iff.1 chain with ⟨middle, -, -, rest⟩
  have onward : Follows move.2 after := follows_of_chain rest fun other isLater =>
    follow other (List.mem_append_right _ (List.mem_cons_of_mem _ isLater))
  exact fun uncancelled => cancelled ((uncancelled.of_follows onward).of_follows (follow move member))

theorem Booked.cancelled {entries : List (Posting γ)} (booked : Booked job addon entries world moves after)
    (stopped : Posting.stopped ∈ entries) : ¬ Uncancelled addon after := by
  rcases booked.exists_move stopped with ⟨move, member, cancelled, -⟩
  exact cancelled_after member booked.chain booked.follow cancelled

/-- A world that is looked at is one that a move begins in. -/
theorem Booked.looked {entries : List (Posting γ)} (booked : Booked job addon entries world moves after)
    (seen : World) (looks : Posting.looked seen ∈ entries) :
    ∃ move ∈ moves, move.1 = seen := by
  rcases booked.exists_move looks with ⟨move, member, same, -⟩
  exact ⟨move, member, same⟩

/-! ## What is entered aside -/

section Asides

variable {asides : List (Posting γ)} (areAsides : ∀ entry ∈ asides, entry.isAside = true)

include areAsides

/-- A part of entries that no aside has is missing in asides. -/
theorem filterMap_asides {β : Type} {part : Posting γ → Option β}
    (untold : ∀ entry : Posting γ, entry.isAside = true → part entry = none) : asides.filterMap part = [] :=
  List.filterMap_eq_nil_iff.2 fun entry member => untold entry (areAsides entry member)

theorem postAll_asides (later : List (Posting γ)) (ledger : Ledger) :
    Posting.postAll job (asides ++ later) ledger = Posting.postAll job later
      { ledger with reported := ledger.reported ++ asides.filterMap Posting.told? } := by
  induction asides generalizing ledger with
  | nil => simp
  | cons entry rest ih =>
      rcases List.forall_mem_cons.1 areAsides with ⟨isAside, areLater⟩
      rw [List.cons_append, Posting.postAll_cons, ih areLater]
      cases entry <;> simp [Posting.isAside] at isAside <;> simp [Posting.post, Posting.told?, List.filterMap_cons]

theorem numbered_asides {current : Nat} {later : List (Posting γ)} (numbered : Numbered current (asides ++ later)) :
    Numbered current later := by
  induction asides with
  | nil => exact numbered
  | cons entry rest ih =>
      rcases List.forall_mem_cons.1 areAsides with ⟨isAside, areLater⟩
      cases entry <;> simp [Posting.isAside] at isAside <;> exact ih areLater numbered

end Asides

theorem worked?_aside {entry : Posting γ} (isAside : entry.isAside = true) : entry.worked? = none := by
  cases entry <;> first | rfl | cases isAside

theorem counted?_aside {entry : Posting γ} (isAside : entry.isAside = true) : entry.counted? = none := by
  cases entry <;> first | rfl | cases isAside

theorem noted?_aside {entry : Posting γ} (isAside : entry.isAside = true) : entry.noted? = none := by
  cases entry <;> first | rfl | cases isAside

theorem advanced?_aside {entry : Posting γ} (isAside : entry.isAside = true) : entry.advanced? = none := by
  cases entry <;> first | rfl | cases isAside

/-- Asides alone list no units. -/
theorem Booked.unlisted {entries : List (Posting γ)} (booked : Booked job addon entries world moves after)
    (asides : ∀ entry ∈ entries, entry.isAside = true) :
    Unlisted addon (entries.filterMap Posting.told?) (entries.filterMap Posting.arranged?) world moves after := by
  rcases booked.enters with ⟨labels, enters, rfl⟩
  rcases ledger_of_chain enters booked.chain booked.ready with ⟨-, posted, -⟩
  have entered := @postAll_asides _ job _ asides [] (world.ledger addon)
  rw [List.append_nil] at entered
  rw [entered, Posting.postAll_nil] at posted
  rcases stepsOn_of_enters enters with ⟨steps, rest, perm, same, -, others⟩
  rw [filterMap_asides asides fun _ => worked?_aside] at same
  cases List.map_eq_nil_iff.1 same
  constructor
  · exact fun move member => others move (perm.subset member)
  · exact congrArg Ledger.reported posted
  · exact congrArg Ledger.extracted posted
  · exact congrArg Ledger.tally posted
  · exact congrArg Ledger.current posted
  · exact congrArg Ledger.total posted

/-! ## The account from the entries -/

/-- The entries with which a stage begins that lists units. -/
def opening (addon : Handle) (units : Nat) : List (Posting γ) :=
  [.begun units, .told (.totalProgress addon units), .told (.currentProgress addon 0)]

/-- What is told at the beginning of a stage that lists units. -/
def openingReport (addon : Handle) (units : Nat) : List Event :=
  [.totalProgress addon units, .currentProgress addon 0]

/-- The ledger with which work on the units begins. -/
def Ledger.opened (addon : Handle) (units : Nat) (ledger : Ledger) : Ledger where
  reported := ledger.reported ++ openingReport addon units
  tally := ledger.tally
  current := 0
  total := units
  extracted := ledger.extracted

theorem postAll_opening (ledger : Ledger) (length : Nat) (later : List (Posting γ)) :
    Posting.postAll job (opening addon length ++ later) ledger =
      Posting.postAll job later (ledger.opened addon length) := by
  simp [opening, openingReport, Ledger.opened, Posting.post]

section Entries

variable {shared : List (Posting γ)} (perm : shared.Perm (shares.flatMap (Share.entries job addon)))

include perm

theorem filterMap_shared_perm {β : Type} (part : Posting γ → Option β) :
    (shared.filterMap part).Perm (shares.flatMap fun share => (share.entries job addon).filterMap part) := by
  rw [← List.filterMap_flatMap]
  exact perm.filterMap part

/-- Each finished unit is told of, and then how many are done. -/
theorem told_perm : (shared.filterMap Posting.told?).Perm ((finishedIn shares).map Finished.event ++
    ((finishedIn shares).map Finished.number).map (Event.currentProgress addon)) := by
  apply (filterMap_shared_perm perm Posting.told?).trans
  have single : (finishedIn shares).map (Event.currentProgress addon ∘ Finished.number) =
      (finishedIn shares).flatMap fun item => [.currentProgress addon item.number] := List.map_eq_flatMap
  simp only [filterMap_told_entries]
  rw [← List.flatMap_assoc, List.map_map, single]
  exact (List.map_append_flatMap_perm (finishedIn shares) Finished.event _).symm

theorem counted_perm :
    (shared.filterMap Posting.counted?).Perm ((finishedIn shares).map Finished.succeeded) := by
  apply (filterMap_shared_perm perm Posting.counted?).trans
  simp only [filterMap_counted_entries, List.map_flatMap]
  exact .refl _

theorem advanced_perm : (shared.filterMap Posting.advanced?).Perm ((finishedIn shares).map Finished.number) := by
  apply (filterMap_shared_perm perm Posting.advanced?).trans
  simp only [filterMap_advanced_entries, List.map_flatMap]
  exact .refl _

theorem worked_perm : (shared.filterMap Posting.worked?).Perm (shares.flatMap Share.worked) := by
  apply (filterMap_shared_perm perm Posting.worked?).trans
  simp only [filterMap_worked_entries]
  exact .refl _

theorem directories_perm : (shared.filterMap Posting.noted?).Perm
    ((shares.flatMap Share.worked).flatMap fun item => job.notes item.1) := by
  apply (filterMap_shared_perm perm Posting.noted?).trans
  simp only [filterMap_noted_entries, List.flatMap_assoc]
  exact .refl _

theorem filterMap_arranged_shared : shared.filterMap Posting.arranged? = [] := by
  apply List.Perm.eq_nil
  apply (filterMap_shared_perm perm Posting.arranged?).trans
  simp only [filterMap_arranged_entries]
  exact List.Perm.of_eq (List.flatMap_eq_nil_iff.2 fun _ _ => rfl)

theorem isLater_of_mem_shared {closing : List (Posting γ)} (asides : ∀ entry ∈ closing, entry.isAside = true) :
    ∀ entry ∈ shared ++ closing, entry.IsLater := by
  intro entry member
  rcases List.mem_append.1 member with inShared | atEnd
  · rcases List.mem_flatMap.1 (perm.subset inShared) with ⟨share, -, inShare⟩
    exact isLater_of_mem_entries inShare
  · rintro units rfl
    cases asides _ atEnd

end Entries

/-- Entries of shares account for the units, whatever is entered aside before and after them. -/
theorem Booked.accounted {first shared last : List (Posting γ)}
    (booked : Booked job addon (first ++ (opening addon units.length ++ (shared ++ last))) world moves after)
    (whole : (shares.flatMap Share.units ++ waiting).Perm units) (sound : ∀ share ∈ shares, share.Sound job)
    (perm : shared.Perm (shares.flatMap (Share.entries job addon)))
    (areFirst : ∀ entry ∈ first, entry.isAside = true) (areLast : ∀ entry ∈ last, entry.isAside = true) :
    ∃ word, Accounted job addon units shares waiting
      (first.filterMap Posting.told? ++ (openingReport addon units.length ++ last.filterMap Posting.told?))
      ((first ++ last).filterMap Posting.arranged?) word world moves after := by
  rcases booked.enters with ⟨labels, enters, entered⟩
  rcases ledger_of_chain enters booked.chain booked.ready with ⟨-, posted, numbered⟩
  have later := isLater_of_mem_shared perm areLast
  have untold : ∀ {β : Type} (part : Posting γ → Option β), (∀ entry, entry.isAside = true → part entry = none) →
      (shared ++ last).filterMap part = shared.filterMap part := by
    intro β part none
    rw [List.filterMap_append, filterMap_asides areLast none, List.append_nil]
  rw [entered, postAll_asides areFirst, postAll_opening] at posted
  rw [entered] at numbered
  have opened := numbered_asides areFirst numbered
  have advanced := advanced_of_numbered later (show Numbered 0 (shared ++ last) from opened)
  rw [untold _ fun _ => advanced?_aside] at advanced
  have numbers : ((finishedIn shares).map Finished.number).Perm (List.range' 1 (finishedIn shares).length) := by
    rw [← List.length_map Finished.number, ← (advanced_perm perm).length_eq]
    exact (advanced_perm perm).symm.trans (List.Perm.of_eq advanced)
  have progress := @progress_postAll _ job _ later (Ledger.opened addon units.length
    { world.ledger addon with reported := (world.ledger addon).reported ++ first.filterMap Posting.told? })
  rw [← posted, untold _ fun _ => advanced?_aside, (advanced_perm perm).length_eq, List.length_map] at progress
  refine ⟨first.filterMap Posting.told? ++ (openingReport addon units.length ++
    (shared.filterMap Posting.told? ++ last.filterMap Posting.told?)), ?_⟩
  constructor
  · exact whole
  · exact sound
  · have stepsOn := stepsOn_of_enters enters
    have worked : labels.reduceOption.filterMap Posting.worked? = shared.filterMap Posting.worked? := by
      rw [entered, List.filterMap_append, filterMap_asides areFirst fun _ => worked?_aside, List.filterMap_append,
        untold _ fun _ => worked?_aside]
      rfl
    have arranged : labels.reduceOption.filterMap Posting.arranged? = (first ++ last).filterMap Posting.arranged? := by
      rw [entered]
      simp only [List.filterMap_append, filterMap_arranged_shared perm]
      rfl
    rw [worked, arranged] at stepsOn
    exact ⟨_, worked_perm perm, stepsOn⟩
  · have reported := congrArg Ledger.reported posted
    rw [reported_postAll, List.filterMap_append] at reported
    refine reported.trans ?_
    simp [Ledger.opened, World.ledger]
  · have extracted := congrArg Ledger.extracted posted
    rw [extracted_postAll, untold _ fun _ => noted?_aside] at extracted
    exact ⟨_, extracted, directories_perm perm⟩
  · have events : (shared.filterMap Posting.told?).Perm ((finishedIn shares).map Finished.event ++
        (List.range' 1 (finishedIn shares).length).map (Event.currentProgress addon)) :=
      (told_perm perm).trans ((numbers.map _).append_left _)
    simp only [List.append_assoc]
    apply List.Perm.append_left
    apply List.Perm.append_left
    exact (events.append_right _).trans List.perm_append_comm
  · have tally := congrArg Ledger.tally posted
    rw [tally_postAll, untold _ fun _ => counted?_aside] at tally
    refine tally.trans ?_
    exact (counted_perm perm).foldl_eq' (fun first _ second _ total => job.record_comm total first second) _
  · exact progress.1.trans (Nat.zero_add _)
  · exact progress.2
  · intro share member unit rest ended
    apply booked.cancelled
    apply List.mem_append_right
    apply List.mem_append_right
    apply List.mem_append_left
    apply perm.symm.subset
    apply List.mem_flatMap.2 ⟨share, member, _⟩
    apply List.mem_append_right
    rw [ended]
    exact List.mem_singleton_self _

end AddonIndex.Indexing
