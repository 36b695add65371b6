import AddonIndex.Proofs.Indexing.Uncancelled
import AddonIndex.Proofs.Activity.Marking
import AddonIndex.Proofs.WorkerPool

/-!
# What workers do together

Workers take turns in any order, one step at a time. What matters of their steps
are deeds: a tool is called for a file, the file is noted, or a failure is
reported. The deeds of each worker follow a habit, and the deeds of all workers
are those of each in some order; the scene changes with one deed after the other.
-/

namespace AddonIndex.Indexing

open Activity

variable {α β : Type} {addon : Handle}

/-- What a step of a worker does. -/
inductive Deed
  | called (file : Path) (succeeded : Bool)
  | noted (file : Path)
  | complained

/-- What workers call for a file, and how a scene changes when a file is noted. -/
structure Duty where
  call : Path → FileTree → ToolEffect
  note : Path → Scene → Scene

/-- Whether a deed leads from a scene to another one. -/
def Deed.Acts (duty : Duty) : Deed → Scene → Scene → Prop
  | called file succeeded, before, after =>
      ((duty.call file before.tree).reply = .outcome .success ↔ succeeded = true) ∧
        after = { before with tree := (duty.call file before.tree).tree }
  | noted file, before, after => after = duty.note file before
  | complained, before, after => after = { before with errors := before.errors + 1 }

/-- Whether deeds lead from a scene to another one, one after the other. -/
def Along (duty : Duty) : List Deed → Scene → Scene → Prop
  | [], before, after => after = before
  | deed :: rest, before, after =>
      ∃ middle, deed.Acts duty before middle ∧ Along duty rest middle after

/-- Whether a step does a deed or, without one, leaves the scene. -/
def Labels (duty : Duty) (addon : Handle) : Option Deed → Move World → Prop
  | none, move => move.2.scene addon = move.1.scene addon
  | some deed, move => deed.Acts duty (move.1.scene addon) (move.2.scene addon)

/-- Whether events are taken throughout, and an addon is never cancelled. -/
def Undisturbed (addon : Handle) (moves : List (Move World)) : Prop :=
  ∀ move ∈ moves, move.1.channel.Live ∧ Uncancelled addon move.1 ∧ Uncancelled addon move.2

variable {duty : Duty}

/-- Undisturbed moves change the scene as their deeds do. -/
theorem along_of_chain {labels : List (Option Deed)} {moves : List (Move World)}
    (labelled : List.Forall₂ (Labels duty addon) labels moves) {world after : World}
    (chain : Chain Interference world moves after) (undisturbed : Undisturbed addon moves)
    (uncancelled : Uncancelled addon after) :
    Along duty labels.reduceOption (world.scene addon) (after.scene addon) := by
  induction labelled generalizing world with
  | nil => exact scene_of_interference chain uncancelled
  | @cons label move labels moves fits _ ih =>
      obtain ⟨gap, chain⟩ := chain
      obtain ⟨-, wanted, -⟩ := undisturbed move List.mem_cons_self
      have rest := ih chain fun other member => undisturbed other (List.mem_cons_of_mem _ member)
      have begins := scene_of_interference gap wanted
      cases label with
      | none =>
          rw [List.reduceOption_cons_of_none, ← begins, ← show move.2.scene addon = _ from fits]
          exact rest
      | some deed =>
          rw [List.reduceOption_cons_of_some, ← begins]
          exact ⟨_, fits, rest⟩

/-- The moves of an execution that leaves the addon uncancelled are undisturbed. -/
theorem undisturbed_of_chain {world after : World} {moves : List (Move World)}
    (chain : Chain Interference world moves after)
    (follow : ∀ move ∈ moves, Follows move.1 move.2) (live : world.channel.Live)
    (uncancelled : Uncancelled addon after) : Undisturbed addon moves := by
  induction moves generalizing world with
  | nil => exact List.forall_mem_nil _
  | cons first rest ih =>
      obtain ⟨gap, chain⟩ := chain
      have followRest : ∀ move ∈ rest, Follows move.1 move.2 := fun move member =>
        follow move (List.mem_cons_of_mem _ member)
      have followFirst := follow first List.mem_cons_self
      have liveFirst := live_of_interference gap live
      have uncancelledFirst := uncancelled.of_follows (follows_of_chain chain followRest)
      intro move member
      rcases List.mem_cons.1 member with rfl | later
      · exact ⟨liveFirst, uncancelledFirst.of_follows followFirst, uncancelledFirst⟩
      · exact ih chain followRest (followFirst.live liveFirst) move later

/-! ## The deeds of one worker -/

/-- Whether the undisturbed moves of an activity always do deeds that fit its result. -/
def Performs (duty : Duty) (addon : Handle) (activity : Run α) (fits : Option α → List Deed → Prop) :
    Prop :=
  ∀ moves result, Traces activity moves result → Undisturbed addon moves →
    ∃ labels, List.Forall₂ (Labels duty addon) labels moves ∧ fits result labels.reduceOption

variable {fits : Option α → List Deed → Prop}

theorem Performs.mono {activity : Run α} {other : Option α → List Deed → Prop}
    (performs : Performs duty addon activity fits)
    (weaker : ∀ result deeds, fits result deeds → other result deeds) :
    Performs duty addon activity other :=
  Marks.mono performs weaker

theorem performs_pure {answer : α} (fit : fits (some answer) []) :
    Performs duty addon (pure answer : Run α) fits :=
  marks_pure fit

/-- The deeds of a sequence are those of the first activity and then those of the second. -/
theorem Performs.bind {first : Run α} {next : α → Run β} {fits : Option β → List Deed → Prop}
    (performs : Performs duty addon first fun result deeds =>
      match result with
      | some answer => Performs duty addon (next answer) fun result more => fits result (deeds ++ more)
      | none => fits none deeds) :
    Performs duty addon (first >>= next) fits :=
  Marks.bind performs

/-- One step does its deed. -/
theorem performs_act {action : World → α × World} (deed : World → Option Deed)
    (does : ∀ world, world.channel.Live → Uncancelled addon world → Uncancelled addon (action world).2 →
      Labels duty addon (deed world) (world, (action world).2) ∧
        fits (some (action world).1) (deed world).toList) :
    Performs duty addon (act action) fits :=
  marks_act deed fun world ⟨live, wanted, changed⟩ => does world live wanted changed

/-- Whether an activity comes to a result without a deed. -/
abbrev Idles (addon : Handle) (activity : Run α) : Prop :=
  ∀ duty, Performs duty addon activity fun result deeds => result.isSome ∧ deeds = []

theorem idles_of_attains {action : World → α × World}
    (keeps : ∀ world, world.channel.Live → Uncancelled addon (action world).2 →
      (action world).2.scene addon = world.scene addon) : Idles addon (act action) := fun _ =>
  performs_act (fun _ => none) fun world live _ changed => ⟨keeps world live changed, rfl, rfl⟩

/-- What follows without a deed before it does the deeds of the whole. -/
theorem Idles.performs_bind {first : Run α} {next : α → Run β} {fits : Option β → List Deed → Prop}
    (idles : Idles addon first) (performs : ∀ answer, Performs duty addon (next answer) fits) :
    Performs duty addon (first >>= next) fits :=
  Marks.skip_bind (idles duty) performs

theorem Idles.bind {first : Run α} {next : α → Run β} (idles : Idles addon first)
    (later : ∀ answer, Idles addon (next answer)) : Idles addon (first >>= next) :=
  fun duty => idles.performs_bind fun answer => later answer duty

theorem performs_isCancelled {fits : Option Bool → List Deed → Prop} (fit : fits (some false) []) :
    Performs duty addon (isCancelled addon) fits :=
  @performs_act _ addon duty fits (fun world => ((world.progressOf addon).cancelled, world))
    (fun _ => none) fun world _ wanted _ => ⟨rfl, by
      rw [show (world.progressOf addon).cancelled = false from wanted]
      exact fit⟩

/-- A file is noted in one step. -/
theorem performs_note {change : World → World} {fits : Option Unit → List Deed → Prop} (file : Path)
    (notes : ∀ world, (change world).scene addon = duty.note file (world.scene addon))
    (fit : fits (some ()) [.noted file]) : Performs duty addon (modify change) fits :=
  @performs_act _ addon duty fits (fun world => ((), change world)) (fun _ => some (.noted file))
    fun world _ _ _ => ⟨notes world, fit⟩

theorem idles_note (line : Text) : Idles addon (note line) :=
  @idles_of_attains _ _ (fun world => ((), { world with log := world.log.write line })) fun _ _ _ => rfl

theorem idles_count (change : Tally → Tally) : Idles addon (count change) :=
  @idles_of_attains _ _ (fun world => ((), { world with tally := change world.tally })) fun _ _ _ => rfl

theorem scene_submit {event : Event} {world : World} (live : world.channel.Live) :
    (World.scene addon { world with channel := world.channel.submit event }) =
      { world.scene addon with errors := world.errors + if event.isError then 1 else 0 } := by
  unfold World.scene World.errors
  rw [EventChannel.reported_submit live, List.countP_append, List.countP_singleton]

theorem idles_tell {event : Event} (noError : event.isError = false) : Idles addon (submit event) :=
  @idles_of_attains _ _ (fun world => ((), { world with channel := world.channel.submit event }))
    fun world live _ => by
      rw [scene_submit live, noError]
      rfl

theorem idles_message (other : Handle) (text : Text) : Idles addon (message other text) :=
  (idles_note text).bind fun _ => idles_tell rfl

theorem idles_unitDone : Idles addon (unitDone addon) := by
  refine Idles.bind (idles_of_attains fun world _ _ => ?_) fun _ => idles_tell rfl
  have advanced := @configs_updateProgress addon world Progress.advance id fun _ => rfl
  rwa [Option.map_id] at advanced

/-- A report of an error is a complaint. -/
theorem performs_error {other : Option Handle} {text : Text} {detail : Option Text}
    {fits : Option Unit → List Deed → Prop} (fit : fits (some ()) [.complained]) :
    Performs duty addon (error other text detail) fits := by
  refine Idles.performs_bind (@idles_of_attains _ _
    (fun world => ((), { world with log := world.log.report text detail })) fun _ _ _ => rfl) fun _ => ?_
  refine @performs_act _ addon duty fits
    (fun world => ((), { world with channel := world.channel.submit (.error other text detail) }))
    (fun _ => some .complained) fun world live _ _ => ⟨?_, fit⟩
  exact scene_submit live

/-! ## Habits -/

/-- The deeds for one file, depending on what becomes of the call: it succeeds, it fails, or it
aborts the worker. -/
structure Habit where
  succeeded : Path → List Deed
  failed : Path → List Deed
  aborted : Path → List Deed

/-- Whether deeds follow a habit, file after file, with a result of the worker. -/
inductive Habit.Follows (habit : Habit) : List Path → Option Unit → List Deed → Prop
  | done : habit.Follows [] (some ()) []
  | succeeded {file : Path} {rest : List Path} {result : Option Unit} {deeds : List Deed}
      (later : habit.Follows rest result deeds) :
      habit.Follows (file :: rest) result (habit.succeeded file ++ deeds)
  | failed {file : Path} {rest : List Path} {result : Option Unit} {deeds : List Deed}
      (later : habit.Follows rest result deeds) :
      habit.Follows (file :: rest) result (habit.failed file ++ deeds)
  | aborted {file : Path} {rest : List Path} : habit.Follows (file :: rest) none (habit.aborted file)

/-! ## Calls of tools -/

/-- A call of a tool is a deed, and what follows knows whether it succeeded. -/
theorem performs_callTool {file : Path} {fits : Option (Except ToolError ToolOutcome) → List Deed → Prop}
    (succeeded : fits (some (.ok .success)) [.called file true])
    (failed : ∀ result, result ≠ .ok .success → fits (some result) [.called file false])
    (aborted : fits none [.called file false]) :
    Performs duty addon (callTool (duty.call file)) fits := by
  refine .bind (performs_act
    (fun world => some (.called file ((duty.call file world.tree).reply = .outcome .success)))
    fun world _ _ changed => ⟨⟨decide_eq_true_iff.symm, scene_cancelNamed changed⟩, ?_⟩)
  change Performs duty addon (takeReply (duty.call file world.tree).reply) fun result more =>
    fits result ([.called file ((duty.call file world.tree).reply = .outcome .success)] ++ more)
  generalize (duty.call file world.tree).reply = reply
  cases reply with
  | outcome outcome =>
      refine performs_pure (show fits (some (.ok outcome)) [.called file _] from ?_)
      by_cases success : outcome = .success
      · subst success
        exact succeeded
      · simpa [success] using failed (.ok outcome) (by simpa using success)
  | error e => exact performs_pure (show fits (some (.error e)) [.called file _] from failed _ nofun)
  | abort =>
      intro moves result traced _
      obtain ⟨rfl, rfl⟩ := traced
      exact ⟨[], .nil, aborted⟩

namespace AddonWork

variable {work : AddonWork}

/-- The outcome of a tool is complained about unless the tool succeeded. -/
theorem performs_reportTool {action : Text} {input output : Path} {record : Tally → Bool → Tally}
    {result : Except ToolError ToolOutcome} {fits : Option Bool → List Deed → Prop}
    (succeeded : result = .ok .success → fits (some true) [])
    (failed : result ≠ .ok .success → fits (some false) [.complained]) :
    Performs duty work.addon (work.reportTool action input output record result) fits := by
  have complains : ∀ detail, result ≠ .ok .success → Performs duty work.addon (do
      count (record · false)
      error (some work.addon) ("Couldn't ".toList ++ action ++ [' '] ++ input.text) (some detail)
      return false) fits := by
    intro detail failure
    exact (idles_count _).performs_bind fun _ => .bind (performs_error (performs_pure (failed failure)))
  unfold reportTool
  split
  · exact (idles_count _).performs_bind fun _ => (idles_message _ _).performs_bind fun _ =>
      performs_pure (succeeded rfl)
  · rename_i outcome notSuccess
    exact complains _ fun same => notSuccess (Except.ok.inj same)
  · exact complains _ nofun

/-- What is called and noted for archives that are extracted below a directory. -/
def extractionDuty (work : AddonWork) (destination : Path) : Duty where
  call archive := work.environment.tools.extract archive (extractionDirectory destination archive)
    work.environment.settings.extractTimeout
  note archive scene :=
    { scene with extracted := scene.extracted ++ [extractionDirectory destination archive] }

/-- Where an archive is extracted to is noted before the extractor is called. -/
def extractionHabit : Habit where
  succeeded archive := [.noted archive, .called archive true]
  failed archive := [.noted archive, .called archive false, .complained]
  aborted archive := [.noted archive, .called archive false]

/-- What is called and noted for binary configs that are converted. -/
def conversionDuty (work : AddonWork) : Duty where
  call binary := work.environment.tools.convert binary (convertedConfig binary)
    work.environment.settings.convertTimeout
  note binary scene := { scene with converted := scene.converted ++ [convertedConfig binary] }

/-- The text of a binary config is noted after the converter has succeeded. -/
def conversionHabit : Habit where
  succeeded binary := [.called binary true, .noted binary]
  failed binary := [.called binary false, .complained]
  aborted binary := [.called binary false]

/-- What a worker does for one file and then for the rest of its files. -/
theorem performs_extractEach (destination : Path) (files : List SizedFile) :
    Performs (work.extractionDuty destination) work.addon (work.extractEach destination files)
      (extractionHabit.Follows (files.map SizedFile.path)) := by
  induction files with
  | nil => exact performs_pure .done
  | cons archive rest ih =>
      unfold extractEach
      have next : Performs (work.extractionDuty destination) work.addon (do
          unitDone work.addon
          work.extractEach destination rest) (extractionHabit.Follows (rest.map SizedFile.path)) :=
        idles_unitDone.performs_bind fun _ => ih
      refine .bind (performs_isCancelled (.bind (performs_note (archive.path) ?_ (.bind
        (@performs_callTool _ (work.extractionDuty destination) archive.path _ ?_ ?_ .aborted)))))
      · exact fun _ => rfl
      · exact .bind (performs_reportTool (fun _ => next.mono fun _ _ later => .succeeded later)
          fun failure => absurd rfl failure)
      · exact fun result failure => .bind (performs_reportTool (fun success => absurd success failure)
          fun _ => next.mono fun _ _ later => .failed later)

theorem performs_convertEach (files : List SizedFile) :
    Performs work.conversionDuty work.addon (work.convertEach files)
      (conversionHabit.Follows (files.map SizedFile.path)) := by
  induction files with
  | nil => exact performs_pure .done
  | cons binary rest ih =>
      unfold convertEach
      have next : Performs work.conversionDuty work.addon (do
          unitDone work.addon
          work.convertEach rest) (conversionHabit.Follows (rest.map SizedFile.path)) :=
        idles_unitDone.performs_bind fun _ => ih
      refine .bind (performs_isCancelled (.bind
        (@performs_callTool _ work.conversionDuty binary.path _ ?_ ?_ .aborted)))
      · refine .bind (performs_reportTool (fun _ => ?_) fun failure => absurd rfl failure)
        refine .bind (performs_note binary.path ?_ (next.mono fun _ _ later => .succeeded later))
        exact fun _ => rfl
      · exact fun result failure => .bind (performs_reportTool (fun success => absurd success failure)
          fun _ => next.mono fun _ _ later => .failed later)

end AddonWork

/-! ## The deeds of all workers -/

/-- Workers side by side do the deeds of each of them, in some order. -/
theorem attains_together {γ : Type} {jobs : List γ} {thread : γ → Run Unit}
    {fits : γ → Option Unit → List Deed → Prop} {scene : Scene} {goal : List Bool → Scene → Prop}
    (each : ∀ job ∈ jobs, Performs duty addon (thread job) (fits job))
    (reached : ∀ (records : List (Marked γ Deed)) deeds after, records.map Marked.job = jobs →
      (∀ record ∈ records, fits record.job record.result record.marks) →
      deeds.Perm (records.flatMap Marked.marks) → Along duty deeds scene after →
      goal (records.map fun record => record.result.isSome) after) :
    Attains addon (together (jobs.map thread)) scene goal := by
  rintro world moves after result ⟨traced, chain⟩ follow live uncancelled rfl
  have undisturbed := undisturbed_of_chain chain follow live uncancelled
  have marked : Marks (fun move => move.1.channel.Live ∧ Uncancelled addon move.1 ∧ Uncancelled addon move.2)
      (Labels duty addon) (together (jobs.map thread)) fun result deeds =>
      ∃ records : List (Marked γ Deed), records.map Marked.job = jobs ∧
        (∀ record ∈ records, fits record.job record.result record.marks) ∧
        deeds.Perm (records.flatMap Marked.marks) ∧
        result = some (records.map fun record => record.result.isSome) := by
    apply marks_together each
    intro records deeds same follow perm
    exact ⟨records, same, follow, perm, rfl⟩
  obtain ⟨labels, fit, records, same, follow, perm, rfl⟩ := marked moves result traced undisturbed
  exact ⟨_, rfl, reached records _ _ same follow perm (along_of_chain fit chain undisturbed uncancelled)⟩

/-- Whether files were shared out among workers: the deeds of each fit its files and its result, those of all were
done in some order, and each worker that was aborted was reported. -/
def Shared (duty : Duty) (fits : List Path → Option Unit → List Deed → Prop) (files : List Path)
    (before after : Scene) : Prop :=
  ∃ (records : List (Marked (List Path) Deed)) (deeds : List Deed) (ended : Scene),
    (records.flatMap Marked.job).Perm files ∧
    (∀ record ∈ records, fits record.job record.result record.marks) ∧
    deeds.Perm (records.flatMap Marked.marks) ∧ Along duty deeds before ended ∧
    after = { ended with errors := ended.errors + records.countP fun record => record.result.isNone }

/-- Whether files were shared out among workers: the deeds of each follow a habit, those of all were
done in some order, and each worker that was aborted was reported. -/
def SharedOut (duty : Duty) (habit : Habit) (files : List Path) (before after : Scene) : Prop :=
  ∃ (records : List (Marked (List Path) Deed)) (deeds : List Deed) (ended : Scene),
    (records.flatMap Marked.job).Perm files ∧
    (∀ record ∈ records, habit.Follows record.job record.result record.marks) ∧
    deeds.Perm (records.flatMap Marked.marks) ∧ Along duty deeds before ended ∧
    after = { ended with errors := ended.errors + records.countP fun record => record.result.isNone }

namespace AddonWork

variable {work : AddonWork}

theorem attains_reportAborted {workers : List Text} {scene : Scene} {goal : Unit → Scene → Prop}
    (reached : goal () { scene with errors := scene.errors + workers.length }) :
    Attains work.addon (work.reportAborted workers) scene goal := by
  induction workers generalizing scene with
  | nil => exact attains_pure reached
  | cons worker rest ih =>
      refine .bind (attains_error (ih ?_))
      rw [List.length_cons, Nat.add_comm rest.length, ← Nat.add_assoc] at reached
      exact reached

/-- Work that is shared out is done by all workers together, unless one is refused. -/
theorem attains_share {fits : List Path → Option Unit → List Deed → Prop} {what : Text} {files : List Path}
    {doUnits : List SizedFile → Run Unit} {scene : Scene} {goal : Except RunFailure Unit → Scene → Prop}
    (each : ∀ bucket, Performs duty work.addon (doUnits bucket) (fits (bucket.map SizedFile.path)))
    (refused : ∀ refusal after, goal (.error (.workerRefused refusal)) after)
    (reached : ∀ after, Shared duty fits files scene after → goal (.ok ()) after) :
    Attains work.addon (work.shareOut what files doUnits) scene goal := by
  refine .bind (attains_lookAt ?_)
  generalize sized : (files.map fun path => SizedFile.mk path (measure scene.tree path)) = sizedFiles
  refine .bind (?_ : Attains _ (WorkerPool.run _ _ _ _) _ _)
  unfold WorkerPool.run
  generalize starts : WorkerPool.start work.environment.refusals
    (work.environment.pool.assignments 1 (balance SizedFile.size work.environment.pool.workers
      sizedFiles)) = starting
  obtain ⟨started, refusal⟩ := starting
  have each : ∀ job ∈ started, Performs duty work.addon (do
      note (workerBlock what job.1 job.2)
      doUnits job.2) (fits (job.2.map SizedFile.path)) :=
    fun job _ => (idles_note _).performs_bind fun _ => each job.2
  refine .bind (attains_together each fun records deeds after jobs follow perm along => ?_)
  cases refusal with
  | some refusal => exact attains_pure (attains_pure (refused _ _))
  | none =>
      refine attains_pure (.bind (attains_reportAborted (attains_pure (reached _ ?_))))
      obtain rfl := WorkerPool.start_eq_of_none starts
      refine ⟨records.map fun record => ⟨record.job.2.map SizedFile.path, record.result, record.marks⟩,
        deeds, after, ?_, ?_, ?_, along, ?_⟩
      · have dealt := flatten_balance_perm SizedFile.size work.environment.pool.workers sizedFiles
        rw [← WorkerPool.flatMap_assignments work.environment.pool 1, ← jobs] at dealt
        have paths := dealt.map SizedFile.path
        rw [← sized, List.map_map, List.map_flatMap, List.flatMap_map] at paths
        rw [List.flatMap_map]
        exact paths.trans (List.Perm.of_eq (List.map_id _))
      · rintro _ member
        obtain ⟨record, inRecords, rfl⟩ := List.mem_map.1 member
        exact follow record inRecords
      · rwa [List.flatMap_map]
      · rw [List.countP_map]
        congr 2
        simp only [← jobs, List.zip_map', List.filterMap_map, List.length_filterMap_eq_countP]
        refine List.countP_congr fun record _ => ?_
        cases record.result <;> simp

end AddonWork

end AddonIndex.Indexing
