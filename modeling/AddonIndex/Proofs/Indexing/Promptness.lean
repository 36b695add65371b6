import AddonIndex.Proofs.Activity.Outline
import AddonIndex.Proofs.Indexing.Account
import AddonIndex.Proofs.Indexing.Publication
import AddonIndex.Proofs.Indexing.Succession

/-!
# Cancellation is prompt

In the work on an addon tools are called by workers, and configs are read and files are copied by the thread that waits
for them. Each thread looks whether the addon is cancelled before everything of this kind that it does. So from the
moment at which the addon is cancelled each thread does at most one more thing of this kind, whatever turns the threads
take and wherever in the work that moment lies.
-/

namespace AddonIndex.Indexing

open Activity

variable {γ α : Type} {addon : Handle}

/-- What a part of the work on an addon does. -/
inductive Errand
  /-- A tool is called. -/
  | call
  /-- A config is read. -/
  | reading
  /-- A file is copied into the cache. -/
  | copying
deriving DecidableEq, Repr

/-- Tools are called by workers, and everything else is done by the thread that waits for them. -/
def Belongs (thread : Option Nat) (errand : Errand) : Prop := thread.isSome ↔ errand = .call

/-- Workers do nothing but call tools. -/
def IsCall (_thread : Option Nat) (errand : Errand) : Prop := errand = .call

/-- An outline of the work on an addon. -/
abbrev WorkOutline := Outline World Errand

/-! ## Outlines of the stages -/

/-- Units of work one after another, unless the addon is cancelled. -/
def eachUnitOutline (addon : Handle) (unit : γ → WorkOutline Unit) : List γ → WorkOutline StageStatus
  | [] => return .completed
  | item :: rest => do
      if ← .plain (isCancelled addon) then return .stopped
      unit item
      eachUnitOutline addon unit rest

/-- A stage between its start and finish events. -/
def stageOutline (addon : Handle) (stage : Stage) (work : WorkOutline α) : WorkOutline α := do
  .plain (submit (.stageStarted addon stage))
  let result ← work
  .plain (submit (.stageFinished addon stage))
  return result

namespace AddonWork

/-- The extraction of one archive. -/
def extractUnitOutline (work : AddonWork) (destination : Path) (archive : SizedFile) : WorkOutline Unit := do
  let directory := extractionDirectory destination archive.path
  .plain (Activity.modify fun world => { world with extracted := world.extracted ++ [directory] })
  let result ← .labelled .call (callTool
    (work.environment.tools.extract archive.path directory work.environment.settings.extractTimeout))
  .plain do
    let _ ← work.reportTool "extract" archive.path directory Tally.countExtraction result
    unitDone work.addon

/-- The conversion of one binary config. -/
def convertUnitOutline (work : AddonWork) (binary : SizedFile) : WorkOutline Unit := do
  let text := convertedConfig binary.path
  let result ← .labelled .call (callTool
    (work.environment.tools.convert binary.path text work.environment.settings.convertTimeout))
  .plain do
    if ← work.reportTool "convert" binary.path text Tally.countConversion result then
      keepConverted text
    unitDone work.addon

/-- The parsing of one config. -/
def parseUnitOutline (work : AddonWork) (config : Path) : WorkOutline Unit := do
  let result ← .labelled .reading (Activity.act fun world =>
    let effect := work.environment.reader config (config.parent?.getD config) world.tree
    (effect.result, world.cancelNamed effect.cancelled))
  .plain do
    work.keepParsed config result
    unitDone work.addon

/-- The saving of one file. -/
def saveUnitOutline (work : AddonWork) (entry : Path) (item : Text × Reference.SourceFile) : WorkOutline Unit := do
  let result ← .labelled .copying (perform (ReferenceCache.copy entry item.1 item.2))
  .plain do
    work.reportCopy entry item.2 result
    unitDone work.addon

/-- Units of work on files, shared out to all workers. -/
def shareOutOutline (work : AddonWork) (what : Text) (files : List Path) (unit : SizedFile → WorkOutline Unit) :
    WorkOutline (Except RunFailure Unit) := do
  let sized ← .plain (lookAt fun tree => files.map fun path => { path, size := measure tree path : SizedFile })
  let pool := work.environment.pool
  let (started, refused) := WorkerPool.start work.environment.refusals
    (pool.assignments 1 (balance SizedFile.size pool.workers sized))
  let ended ← .sideBySide started.length fun i => do
    .plain (note (workerBlock what started[i].1 started[i].2))
    let _ ← eachUnitOutline work.addon unit started[i].2
  match refused with
  | some refusal => return .error (.workerRefused refusal)
  | none =>
      .plain do
        work.reportAborted ((started.zip ended).filterMap fun (assignment, ended) =>
          if ended then none else some assignment.1)
        return .ok ()

/-- The extraction of the archives. -/
def extractOutline (work : AddonWork) (tempRoot : Path) : WorkOutline (Except RunFailure StageStatus) :=
  stageOutline work.addon .extraction do
    match ← .plain (lookAt (archiveContainer? work.addon.directory)) with
    | .error cause => return .error (.addonDirectoryUnreadable work.addon.directory cause)
    | .ok none =>
        .plain do
          warning work.addon ("No '".toList ++ containerName ++ "' directory in ".toList ++
            work.addon.directory.text ++ ", skipping addon".toList) none
          return .ok .stopped
    | .ok (some container) =>
        match ← .plain (lookAt (archives container)) with
        | .error cause => return .error (.addonDirectoryUnreadable container cause)
        | .ok files => do
            .plain do
              note (Text.ofNat files.length ++ " PBO files found in ".toList ++ container.text)
              beginWork work.addon files.length
            match ← work.shareOutOutline "Extracting PBOs" files
                (work.extractUnitOutline (tempRoot.join work.addon.name)) with
            | .error failure => return .error failure
            | .ok () => .plain do return .ok (← work.status)

/-- The conversion of the binary configs. -/
def convertOutline (work : AddonWork) : WorkOutline (Except RunFailure (StageStatus × List Path)) :=
  stageOutline work.addon .conversion do
    match ← .plain (Activity.inspect World.extracted >>= work.findConfigs) with
    | none => return .ok (.stopped, [])
    | some found => do
        .plain do
          noteTexts found.texts
          beginWork work.addon found.binaries.length
          Activity.modify fun world => { world with converted := found.texts }
        match ← work.shareOutOutline "De-binarizing configs" found.binaries work.convertUnitOutline with
        | .error failure => return .error failure
        | .ok () =>
            .plain do
              let configs ← Activity.inspect World.converted
              return .ok (← work.status, Path.sort configs)

/-- The parsing of text configs. -/
def parseOutline (work : AddonWork) (configs : List Path) : WorkOutline StageStatus :=
  stageOutline work.addon .parsing do
    .plain (beginWork work.addon configs.length)
    eachUnitOutline work.addon work.parseUnitOutline configs

/-- The saving of scripts and headers. -/
def saveOutline (work : AddonWork) : WorkOutline StageStatus :=
  stageOutline work.addon .saving do
    match ← .plain (perform (work.cache.prepare work.addon.name)) with
    | .error cause =>
        .plain do
          error (some work.addon) ("Failed to create reference directory ".toList ++
            (work.cache.entry work.addon.name).text) (some cause.message)
          return .stopped
    | .ok entry => do
        let plan ← .plain do
          work.setReference entry
          let directories ← Activity.inspect World.extracted
          let plan ← lookAt (savePlan directories)
          beginWork work.addon plan.length
          return plan
        match ← eachUnitOutline work.addon (work.saveUnitOutline entry) plan with
        | .stopped => return .stopped
        | .completed =>
            .plain do
              match ← perform (ReferenceCache.markValid entry) with
              | .ok () => return .completed
              | .error cause => do
                  error (some work.addon) ("Failed to mark reference directory ".toList ++
                    entry.text ++ " as valid".toList) (some cause.message)
                  return .completed

/-- Reading the addon from its entry of the cache. -/
def readFromCacheOutline (work : AddonWork) : WorkOutline Bool := do
  match ← .plain (lookAt (work.cache.state work.addon.name)) with
  | .missing => return false
  | .invalid =>
      .plain do
        note ("Reference cache for ".toList ++ work.addon.name ++
          " is marked invalid, indexing again".toList)
        return false
  | .valid => do
      let entry := work.cache.entry work.addon.name
      let configs ← .plain do
        note ("Loading ".toList ++ work.addon.name ++ " from reference cache ".toList ++ entry.text)
        count Tally.countCacheHit
        work.setReference entry
        lookAt (ReferenceCache.configFiles entry)
      let _ ← work.parseOutline configs
      return true

/-- All stages. -/
def indexOutline (work : AddonWork) (tempRoot : Path) : WorkOutline (Except RunFailure StageStatus) := do
  match ← work.extractOutline tempRoot with
  | .error failure => return .error failure
  | .ok .stopped => return .ok .stopped
  | .ok .completed =>
      match ← work.convertOutline with
      | .error failure => return .error failure
      | .ok (.stopped, _) => return .ok .stopped
      | .ok (.completed, configs) =>
          match ← work.parseOutline configs with
          | .stopped => return .ok .stopped
          | .completed => return .ok (← work.saveOutline)

/-- Reading the addon from the cache, or all stages. -/
def readOrIndexOutline (work : AddonWork) (tempRoot : Path) : WorkOutline (Except RunFailure StageStatus) := do
  if ← work.readFromCacheOutline then return .ok .completed else work.indexOutline tempRoot

/-- The whole work on an addon. -/
def outline (work : AddonWork) (tempRoot : Path) : WorkOutline (Except RunFailure Unit) := do
  .plain do
    submit (.addonStarted work.addon)
    note ("INDEX STARTED for addon ".toList ++ work.addon.name)
    Activity.modify fun world => { world with extracted := [] }
  let result ← work.readOrIndexOutline tempRoot
  .plain do
    work.cleanup tempRoot
    finishAddon work.addon result

/-! ## What they are outlines of -/

theorem activity_eachUnitOutline (unit : γ → WorkOutline Unit) (items : List γ) :
    (eachUnitOutline addon unit items).activity = eachUnit addon (fun item => (unit item).activity) items := by
  induction items with
  | nil => rfl
  | cons item rest ih =>
      refine congrArg (Activity.bind _) (funext fun cancelled => ?_)
      cases cancelled with
      | true => rfl
      | false => exact congrArg (Activity.bind _) (funext fun _ => ih)

variable {work : AddonWork}

theorem activity_extractUnitOutline (destination : Path) (archive : SizedFile) :
    (work.extractUnitOutline destination archive).activity = work.extractUnit destination archive := rfl

theorem activity_convertUnitOutline (binary : SizedFile) :
    (work.convertUnitOutline binary).activity = work.convertUnit binary := rfl

theorem together_map (started : List γ) (thread : γ → Run Unit) :
    Activity.together (started.map thread) = .parallel started.length (fun i => thread started[i]) pure := by
  have general : ∀ (count : Nat) (sized : count = started.length) (threads : Fin count → Run Unit),
      (∀ i, threads i = thread started[i.cast sized]) →
      Activity.parallel count threads pure = .parallel started.length (fun i => thread started[i]) pure := by
    rintro _ rfl threads same
    exact congrArg (Activity.parallel _ · _) (funext same)
  exact general _ (List.length_map _) _ fun i => by simp

theorem activity_shareOutOutline (what : Text) (files : List Path) (unit : SizedFile → WorkOutline Unit) :
    (work.shareOutOutline what files unit).activity = work.shareOut what files fun bucket =>
      eachUnit work.addon (fun file => (unit file).activity) bucket >>= fun _ => pure () := by
  unfold shareOut shareOutOutline WorkerPool.run
  refine congrArg (Activity.bind _) (funext fun sized => ?_)
  dsimp only
  generalize WorkerPool.start work.environment.refusals
    (work.environment.pool.assignments 1 (balance SizedFile.size work.environment.pool.workers sized)) = starting
  obtain ⟨started, refused⟩ := starting
  dsimp only
  rw [together_map, bind_assoc]
  simp only [← activity_eachUnitOutline]
  refine congrArg (Activity.bind _) (funext fun ended => ?_)
  cases refused with
  | some refusal => rfl
  | none => rfl

theorem activity_extractOutline (tempRoot : Path) : (work.extractOutline tempRoot).activity = work.extract tempRoot := by
  refine congrArg (withStage work.addon .extraction) (congrArg (Activity.bind _) (funext fun found => ?_))
  match found with
  | .error cause => rfl
  | .ok none => rfl
  | .ok (some container) =>
      refine congrArg (Activity.bind _) (funext fun listed => ?_)
      cases listed with
      | error cause => rfl
      | ok files =>
          have shared := @activity_shareOutOutline work "Extracting PBOs" files
            (work.extractUnitOutline (tempRoot.join work.addon.name))
          simp only [activity_extractUnitOutline, ← extractEach_eq] at shared
          refine congrArg (Activity.bind _) (funext fun _ => ?_)
          refine (congrArg (Activity.bind · _) shared).trans (congrArg (Activity.bind _) (funext fun result => ?_))
          cases result <;> rfl

theorem activity_convertOutline : work.convertOutline.activity = work.convert := by
  refine congrArg (withStage work.addon .conversion) ?_
  refine (bind_assoc _ _ _).trans (congrArg (Activity.bind _) (funext fun extracted =>
    congrArg (Activity.bind _) (funext fun found => ?_)))
  cases found with
  | none => rfl
  | some found =>
      have shared := @activity_shareOutOutline work "De-binarizing configs" found.binaries work.convertUnitOutline
      simp only [activity_convertUnitOutline, ← convertEach_eq] at shared
      refine (bind_assoc _ _ _).trans (congrArg (Activity.bind _) (funext fun _ => ?_))
      refine congrArg (Activity.bind _) (funext fun _ => ?_)
      refine (congrArg (Activity.bind · _) shared).trans (congrArg (Activity.bind _) (funext fun result => ?_))
      cases result <;> rfl

theorem activity_parseOutline (configs : List Path) : (work.parseOutline configs).activity = work.parse configs := by
  refine congrArg (withStage work.addon .parsing) (congrArg (Activity.bind _) (funext fun _ => ?_))
  rw [parseEach_eq]
  exact activity_eachUnitOutline work.parseUnitOutline configs

theorem activity_saveOutline : work.saveOutline.activity = work.save := by
  refine congrArg (withStage work.addon .saving) (congrArg (Activity.bind _) (funext fun prepared => ?_))
  cases prepared with
  | error cause => rfl
  | ok entry =>
      refine (bind_assoc _ _ _).trans (congrArg (Activity.bind _) (funext fun _ => ?_))
      refine (bind_assoc _ _ _).trans (congrArg (Activity.bind _) (funext fun directories => ?_))
      refine (bind_assoc _ _ _).trans (congrArg (Activity.bind _) (funext fun plan => ?_))
      refine (bind_assoc _ _ _).trans (congrArg (Activity.bind _) (funext fun _ => ?_))
      have saved := (activity_eachUnitOutline (work.saveUnitOutline entry) plan).trans (saveEach_eq entry plan).symm
      refine (congrArg (Activity.bind · _) saved).trans (congrArg (Activity.bind _) (funext fun status => ?_))
      cases status <;> rfl

theorem activity_readFromCacheOutline : work.readFromCacheOutline.activity = work.readFromCache := by
  refine congrArg (Activity.bind _) (funext fun state => ?_)
  cases state with
  | missing => rfl
  | invalid => rfl
  | valid =>
      refine congrArg (Activity.bind _) (funext fun configs => ?_)
      exact congrArg (Activity.bind · _) (activity_parseOutline configs)

theorem activity_indexOutline (tempRoot : Path) : (work.indexOutline tempRoot).activity = work.index tempRoot := by
  refine (congrArg (Activity.bind · _) (activity_extractOutline tempRoot)).trans
    (congrArg (Activity.bind _) (funext fun extracted => ?_))
  match extracted with
  | .error failure => rfl
  | .ok .stopped => rfl
  | .ok .completed =>
  refine (congrArg (Activity.bind · _) activity_convertOutline).trans
    (congrArg (Activity.bind _) (funext fun converted => ?_))
  match converted with
  | .error failure => rfl
  | .ok (.stopped, _) => rfl
  | .ok (.completed, configs) =>
  refine (congrArg (Activity.bind · _) (activity_parseOutline configs)).trans
    (congrArg (Activity.bind _) (funext fun parsed => ?_))
  cases parsed with
  | stopped => rfl
  | completed => exact congrArg (Activity.bind · _) activity_saveOutline

theorem activity_readOrIndexOutline (tempRoot : Path) :
    (work.readOrIndexOutline tempRoot).activity = work.readOrIndex tempRoot := by
  refine (congrArg (Activity.bind · _) activity_readFromCacheOutline).trans
    (congrArg (Activity.bind _) (funext fun isRead => ?_))
  cases isRead with
  | true => rfl
  | false => exact activity_indexOutline tempRoot

/-- The outline is one of the work on the addon. -/
theorem activity_outline (work : AddonWork) (tempRoot : Path) :
    (work.outline tempRoot).activity = indexAddon work tempRoot := by
  refine congrArg (Activity.bind _) (funext fun _ => ?_)
  exact congrArg (Activity.bind · _) (activity_readOrIndexOutline tempRoot)

/-! ## Every errand comes after a look -/

theorem length_le_one_of_callTool {call : FileTree → ToolEffect} {moves : List (Move World)}
    {result : Option (Except ToolError ToolOutcome)} (traced : Traces (callTool call) moves result) :
    moves.length ≤ 1 := by
  rcases traces_bind_iff.1 traced with ⟨_, after, reply, rfl, ⟨_, _, rfl, rfl, -⟩, taken⟩ | ⟨⟨_, _, rfl, rfl, -⟩, -⟩
  · have none : after = [] := by cases reply <;> exact taken.1
    rw [none]
    exact le_refl 1
  · exact le_refl 1

theorem length_le_one_of_act {action : World → α × World} {moves : List (Move World)} {result : Option α}
    (traced : Traces (Activity.act action) moves result) : moves.length ≤ 1 := by
  obtain ⟨_, _, rfl, rfl, -⟩ := traced
  exact le_refl 1

open Outline

theorem solo_eachUnitOutline {unit : γ → WorkOutline Unit} (solo : ∀ item, Solo (unit item)) (items : List γ) :
    Solo (eachUnitOutline addon unit items) := by
  induction items with
  | nil => exact solo_pure _
  | cons item rest ih =>
      refine (solo_plain _).bind fun cancelled => ?_
      split
      · exact solo_pure _
      · exact (solo item).bind fun _ => ih

/-- Units of work with one errand each are looked after: there is a look that does not find the addon cancelled before
each of them. -/
theorem guards_eachUnitOutline {may : Option Nat → Errand → Prop} {unit : γ → WorkOutline Unit}
    (singles : ∀ item, Singles may (unit item)) (items : List γ) :
    Guards (Uncancelled addon) may (eachUnitOutline addon unit items) := by
  induction items with
  | nil => exact guards_pure _
  | cons item rest ih =>
      refine ⟨?guarded, (places_plain _).bind fun cancelled => ?places⟩
      case places =>
        split
        · exact places_plain _
        · exact (singles item).places.bind fun _ => ih.places
      rintro moves result (⟨_, after, cancelled, rfl, ⟨_, ⟨seen, _, rfl, rfl, found⟩, rfl⟩, later⟩ |
        ⟨⟨_, ⟨_, _, _, _, none⟩, _⟩, _⟩)
      case inr => cases none
      obtain rfl := Option.some.inj found
      dsimp only at later
      split at later
      case isTrue =>
        exact guarded_of_unlabelled (by
          obtain ⟨_, ⟨rfl, -⟩, rfl⟩ := later
          simp)
      case isFalse uncancelled =>
        have isOpen : Uncancelled addon seen := Bool.eq_false_iff.2 uncancelled
        rcases later with ⟨during, others, _, rfl, works, goesOn⟩ | ⟨works, -⟩
        · rw [← List.append_assoc]
          exact (((singles item).once during _ works).guarded isOpen rfl).append (ih.guarded others result goesOn)
        · exact ((singles item).once _ _ works).guarded isOpen rfl

theorem singles_extractUnitOutline (destination : Path) (archive : SizedFile) :
    Singles IsCall (work.extractUnitOutline destination archive) :=
  singles_plain_bind fun _ => (singles_labelled (show IsCall none .call from rfl) fun _ _ => length_le_one_of_callTool).bind_plain

theorem singles_convertUnitOutline (binary : SizedFile) :
    Singles IsCall (work.convertUnitOutline binary) :=
  (singles_labelled (show IsCall none .call from rfl) fun _ _ => length_le_one_of_callTool).bind_plain

theorem singles_parseUnitOutline (config : Path) : Singles Belongs (work.parseUnitOutline config) :=
  (singles_labelled (by simp [Belongs]) fun _ _ => length_le_one_of_act).bind_plain

theorem singles_saveUnitOutline (entry : Path) (item : Text × Reference.SourceFile) :
    Singles Belongs (work.saveUnitOutline entry item) :=
  (singles_labelled (by simp [Belongs]) fun _ _ => length_le_one_of_act).bind_plain

theorem solo_extractUnitOutline (destination : Path) (archive : SizedFile) :
    Solo (work.extractUnitOutline destination archive) :=
  (solo_plain _).bind fun _ => (solo_labelled _ _).bind fun _ => solo_plain _

theorem solo_convertUnitOutline (binary : SizedFile) : Solo (work.convertUnitOutline binary) :=
  (solo_labelled _ _).bind fun _ => solo_plain _

theorem guards_stageOutline {stage : Stage} {inner : WorkOutline α}
    (guards : Guards (Uncancelled addon) Belongs inner) : Guards (Uncancelled addon) Belongs (stageOutline addon stage inner) :=
  (guards_plain _).bind fun _ => guards.bind fun _ => (guards_plain _).bind fun _ => guards_pure _

theorem guards_shareOutOutline {what : Text} {files : List Path} {unit : SizedFile → WorkOutline Unit}
    (solo : ∀ item, Solo (unit item)) (singles : ∀ item, Singles IsCall (unit item)) :
    Guards (Uncancelled work.addon) Belongs (work.shareOutOutline what files unit) := by
  refine (guards_plain _).bind fun sized => ?_
  dsimp only
  generalize WorkerPool.start work.environment.refusals
    (work.environment.pool.assignments 1 (balance SizedFile.size work.environment.pool.workers sized)) = starting
  obtain ⟨started, refused⟩ := starting
  dsimp only
  refine (@guards_sideBySide World Errand _ _ _ _ IsCall (fun i => ?_) (fun i => ?_) ?_).bind fun ended => ?_
  · exact (guards_plain _).bind fun _ => (guards_eachUnitOutline singles _).bind fun _ => guards_pure _
  · exact (solo_plain _).bind fun _ => (solo_eachUnitOutline solo _).bind fun _ => solo_pure _
  · rintro i _ rfl
    simp [Belongs]
  · split
    · exact guards_pure _
    · exact guards_plain _

theorem guards_extractOutline (tempRoot : Path) : Guards (Uncancelled work.addon) Belongs (work.extractOutline tempRoot) := by
  refine guards_stageOutline ((guards_plain _).bind fun found => ?_)
  split
  · exact guards_pure _
  · exact guards_plain _
  · refine (guards_plain _).bind fun listed => ?_
    split
    · exact guards_pure _
    · refine (guards_plain _).bind fun _ => (guards_shareOutOutline (solo_extractUnitOutline _)
        (singles_extractUnitOutline _)).bind fun shared => ?_
      split
      · exact guards_pure _
      · exact guards_plain _

theorem guards_convertOutline : Guards (Uncancelled work.addon) Belongs work.convertOutline := by
  refine guards_stageOutline ((guards_plain _).bind fun found => ?_)
  split
  · exact guards_pure _
  · refine (guards_plain _).bind fun _ => (guards_shareOutOutline solo_convertUnitOutline
      singles_convertUnitOutline).bind fun shared => ?_
    split
    · exact guards_pure _
    · exact guards_plain _

theorem guards_parseOutline (configs : List Path) : Guards (Uncancelled work.addon) Belongs (work.parseOutline configs) :=
  guards_stageOutline ((guards_plain _).bind fun _ => guards_eachUnitOutline singles_parseUnitOutline configs)

theorem guards_saveOutline : Guards (Uncancelled work.addon) Belongs work.saveOutline := by
  refine guards_stageOutline ((guards_plain _).bind fun prepared => ?_)
  split
  · exact guards_plain _
  · refine (guards_plain _).bind fun plan => (guards_eachUnitOutline (singles_saveUnitOutline _) plan).bind
      fun status => ?_
    split
    · exact guards_pure _
    · exact guards_plain _

theorem guards_readFromCacheOutline : Guards (Uncancelled work.addon) Belongs work.readFromCacheOutline := by
  refine (guards_plain _).bind fun state => ?_
  split
  · exact guards_pure _
  · exact guards_plain _
  · exact (guards_plain _).bind fun configs => (guards_parseOutline configs).bind fun _ => guards_pure _

theorem guards_indexOutline (tempRoot : Path) : Guards (Uncancelled work.addon) Belongs (work.indexOutline tempRoot) := by
  refine (guards_extractOutline tempRoot).bind fun extracted => ?_
  split
  · exact guards_pure _
  · exact guards_pure _
  refine guards_convertOutline.bind fun converted => ?_
  split
  · exact guards_pure _
  · exact guards_pure _
  refine (guards_parseOutline _).bind fun parsed => ?_
  split
  · exact guards_pure _
  · exact guards_saveOutline.bind fun _ => guards_pure _

theorem guards_readOrIndexOutline (tempRoot : Path) :
    Guards (Uncancelled work.addon) Belongs (work.readOrIndexOutline tempRoot) := by
  refine guards_readFromCacheOutline.bind fun isRead => ?_
  split
  · exact guards_pure _
  · exact guards_indexOutline tempRoot

/-- In the work on an addon each thread looks before every errand, after the one before, and does not find the addon
cancelled. -/
theorem guards_outline (work : AddonWork) (tempRoot : Path) :
    Guards (Uncancelled work.addon) Belongs (work.outline tempRoot) :=
  (guards_plain _).bind fun _ => (guards_readOrIndexOutline tempRoot).bind fun _ => guards_plain _

/-- Whoever is cancelled is so at every later move. -/
theorem cancelled_at_moves {middle after : World} {moves : List (Move World)}
    (follow : ∀ move ∈ moves, Follows move.1 move.2) (chain : Chain Interference middle moves after)
    (cancelled : ¬ Uncancelled addon middle) : ∀ move ∈ moves, ¬ Uncancelled addon move.1 := by
  intro move member uncancelled
  have reaches := (chain.relates_moves Proceeds.refl (fun _ _ _ => Proceeds.trans)
    (fun _ _ => Proceeds.of_interference) follow move member).1
  exact cancelled (uncancelled.of_follows reaches)

/-- Cancellation is prompt. From the moment at which an addon is cancelled, wherever in the work on it that lies and
whatever turns the workers take, each thread does at most one more errand: each worker calls at most one more tool, and
the thread that waits for them reads at most one more config or copies at most one more file. -/
theorem errands_le_one_of_cancelled {tempRoot : Path} {middle after : World} {earlier later : List (Move World)}
    {result : Option (Except RunFailure Unit)}
    (traced : Traces (indexAddon work tempRoot) (earlier ++ later) result)
    (cancelled : ¬ Uncancelled work.addon middle) (since : Chain Interference middle later after) :
    (work.outline tempRoot).activity = indexAddon work tempRoot ∧
      (∃ moves, moves.map LabelledMove.move = earlier ++ later ∧ (work.outline tempRoot).Traces moves result) ∧
      ∀ before rest, before.map LabelledMove.move = earlier → rest.map LabelledMove.move = later →
        (work.outline tempRoot).Traces (before ++ rest) result →
        (∀ one ∈ before ++ rest, ∀ errand, one.label = some errand → (one.thread.isSome ↔ errand = .call)) ∧
          ∀ thread, rest.countP (fun one => one.thread = thread ∧ one.label.isSome) ≤ 1 := by
  have same := work.activity_outline tempRoot
  refine ⟨same, exists_traces (same ▸ traced), ?_⟩
  rintro before rest rfl rfl labelled
  have guards := work.guards_outline tempRoot
  refine ⟨guards.places _ _ labelled, (guards.guarded _ _ labelled).countP_le_one fun one member => ?_⟩
  have follow := (speaksOf_indexAddon work tempRoot).follow.of_traces traced
  exact cancelled_at_moves (fun move member => follow move (List.mem_append_right _ member)) since cancelled one.move
    (List.mem_map_of_mem member)

end AddonWork

/-- The addon with one archive is cancelled while its config is read. Its files are not copied after that, though the
next stage begins. -/
theorem errands_le_one_of_cancellingReader :
    ∃ earlier middle later after result,
      Traces (indexAddon cancellingWork "ref/temp") (earlier ++ later) result ∧
      ¬ Uncancelled cancellingWork.addon middle ∧ Chain Interference middle later after ∧
      ∃ before rest, before.map LabelledMove.move = earlier ∧ rest.map LabelledMove.move = later ∧
        (cancellingWork.outline "ref/temp").Traces (before ++ rest) result ∧
        ∀ thread, rest.countP (fun one => one.thread = thread ∧ one.label.isSome) ≤ 1 := by
  let moves := trail (indexAddon cancellingWork "ref/temp") packed
  obtain ⟨traced, chain⟩ : Executes Interference (indexAddon cancellingWork "ref/temp") packed moves _ _ :=
    executes_trail _ packed
  rw [← List.take_append_drop 50 moves] at traced chain
  obtain ⟨_, -, since⟩ := chain_append_iff.1 chain
  have found : (moves.drop 50).head?.any (fun move => !decide (Uncancelled cancellingWork.addon move.1)) = true := by
    decide +kernel
  generalize moves.take 50 = earlier at traced
  generalize moves.drop 50 = later at traced since found
  cases later with
  | nil => cases found
  | cons move later =>
      have cancelled : ¬ Uncancelled cancellingWork.addon move.1 := by simpa using found
      have goesOn : Chain Interference move.1 (move :: later) _ := ⟨.refl, since.2⟩
      obtain ⟨-, ⟨all, same, labelled⟩, each⟩ := AddonWork.errands_le_one_of_cancelled traced cancelled goesOn
      obtain ⟨before, rest, rfl, isEarlier, isLater⟩ := List.map_eq_append_iff.1 same
      exact ⟨_, _, _, _, _, traced, cancelled, goesOn, before, rest, isEarlier, isLater, labelled,
        (each before rest isEarlier isLater labelled).2⟩

end AddonIndex.Indexing
