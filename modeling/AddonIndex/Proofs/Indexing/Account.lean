import AddonIndex.Proofs.Indexing.Ledger
import AddonIndex.Proofs.Indexing.Polling

/-!
# Units of work and their entries

A unit that is finished makes the same entries in every stage: it is worked on, counted, told of, and done. Units
are taken one after another until none is left, or the addon is found cancelled, or the worker is aborted in the
middle of one; nothing is entered for those that are left.
-/

namespace AddonIndex.Indexing

open Activity

variable {α γ : Type} {addon : Handle} {job : Job γ}

/-- A unit of work that is finished: whether it succeeded, what was told of it, and its number among those that
are done. -/
structure Finished (γ : Type) where
  unit : γ
  succeeded : Bool
  event : Event
  number : Nat

/-- The entries of a finished unit. -/
def Finished.entries (job : Job γ) (addon : Handle) (item : Finished γ) : List (Posting γ) :=
  (job.notes item.unit).map Posting.noted ++ [.worked item.unit (some item.succeeded), .counted item.succeeded,
    .told item.event, .advanced item.number, .told (.currentProgress addon item.number)]

/-- Where the work on units one after another ends. -/
inductive Ending (γ : Type)
  | completed
  /-- The addon is found cancelled before a unit. -/
  | stopped (unit : γ) (rest : List γ)
  /-- The worker is aborted in the middle of a unit. -/
  | broken (unit : γ) (rest : List γ)
deriving Inhabited

namespace Ending

/-- The units that are not finished. -/
def left : Ending γ → List γ
  | completed => []
  | stopped unit rest => unit :: rest
  | broken unit rest => unit :: rest

/-- What is entered at the end. -/
def entries (job : Job γ) : Ending γ → List (Posting γ)
  | completed => []
  | stopped _ _ => [.stopped]
  | broken unit _ => (job.notes unit).map Posting.noted ++ [.worked unit none]

/-- The status that is reached, unless the worker is aborted. -/
def status? : Ending γ → Option StageStatus
  | completed => some .completed
  | stopped _ _ => some .stopped
  | broken _ _ => none

end Ending

/-- The units of one worker, in order: those that are finished, and those that are left. -/
structure Share (γ : Type) where
  finished : List (Finished γ)
  ending : Ending γ
deriving Inhabited

namespace Share

/-- All units of a share. -/
def units (share : Share γ) : List γ := share.finished.map Finished.unit ++ share.ending.left

/-- The entries of a share. -/
def entries (job : Job γ) (addon : Handle) (share : Share γ) : List (Posting γ) :=
  share.finished.flatMap (Finished.entries job addon) ++ share.ending.entries job

/-- Whether what is told of finished units is what the job tells of them. -/
def Sound (job : Job γ) (share : Share γ) : Prop :=
  ∀ item ∈ share.finished, job.tells item.unit item.succeeded item.event

/-- Whether the worker was aborted. -/
def isBroken (share : Share γ) : Bool := share.ending.status?.isNone

end Share

/-- Whether a unit is finished with its entries, or the worker is aborted in it. -/
def Treats (job : Job γ) (addon : Handle) (unit : γ) (result : Option Unit) (entries : List (Posting γ)) : Prop :=
  (∃ item : Finished γ, item.unit = unit ∧ job.tells unit item.succeeded item.event ∧ result = some () ∧
    entries = item.entries job addon) ∨
  (result = none ∧ entries = (job.notes unit).map Posting.noted ++ [.worked unit none])

/-- The entries of units that are taken one after another are those of a share. -/
theorem books_eachUnit {unit : γ → Run Unit} (each : ∀ item, Books job addon (unit item) (Treats job addon item))
    (items : List γ) :
    Books job addon (eachUnit addon unit items) fun result entries =>
      ∃ share : Share γ, share.units = items ∧ share.Sound job ∧ result = share.ending.status? ∧
        entries = share.entries job addon := by
  induction items with
  | nil => exact marks_pure ⟨⟨[], .completed⟩, rfl, List.forall_mem_nil _, rfl, rfl⟩
  | cons item rest ih =>
      apply Marks.bind
      apply books_isCancelled
      · exact marks_pure ⟨⟨[], .stopped item rest⟩, rfl, List.forall_mem_nil _, rfl, rfl⟩
      · apply Marks.bind
        apply (each item).mono
        rintro _ _ (⟨done, isUnit, tells, rfl, rfl⟩ | ⟨rfl, rfl⟩)
        · apply ih.mono
          rintro _ _ ⟨share, units, sound, rfl, rfl⟩
          refine ⟨⟨done :: share.finished, share.ending⟩, ?_, ?_, rfl, ?_⟩
          · rw [← isUnit, ← units]
            rfl
          · exact List.forall_mem_cons.2 ⟨isUnit ▸ tells, sound⟩
          · simp [Share.entries]
        · exact ⟨⟨[], .broken item rest⟩, rfl, List.forall_mem_nil _, rfl, rfl⟩

/-! ## Tools -/

/-- What comes of a call of a tool: it succeeds or not, or aborts the worker. -/
def successOf : ToolReply → Option Bool
  | .outcome .success => some true
  | .abort => none
  | _ => some false

/-- Calling a tool for files. -/
def toolJob (addon : Handle) (notes : Path → List Path) (action : Text) (call : Path → FileTree → ToolEffect) (output : Path → Path)
    (record : Tally → Bool → Tally)
    (record_comm : ∀ tally first second, record (record tally first) second = record (record tally second) first) :
    Job SizedFile where
  notes file := notes file.path
  step file world :=
    World.cancelNamed { world with tree := (call file.path world.tree).tree } (call file.path world.tree).cancelled
  result file world := successOf (call file.path world.tree).reply
  tells file succeeded event :=
    if succeeded then event = .message addon ("Finished ".toList ++ action ++ " of ".toList ++ file.path.text ++
      " to ".toList ++ (output file.path).text)
    else ∃ detail, event = .error (some addon) ("Couldn't ".toList ++ action ++ [' '] ++ file.path.text) (some detail)
  record := record
  record_comm := record_comm

namespace AddonWork

variable {work : AddonWork}

/-- The outcome of a tool is counted and told. -/
theorem books_reportTool {action : Text} {input output : Path} {record : Tally → Bool → Tally}
    {result : Except ToolError ToolOutcome} {goal : Option Bool → List (Posting γ) → Prop}
    (records : job.record = record)
    (succeeded : result = .ok .success → goal (some true) [.counted true, .told (.message work.addon
      ("Finished ".toList ++ action ++ " of ".toList ++ input.text ++ " to ".toList ++ output.text))])
    (failed : ∀ detail, result ≠ .ok .success → goal (some false) [.counted false, .told (.error (some work.addon)
      ("Couldn't ".toList ++ action ++ [' '] ++ input.text) (some detail))]) :
    Books job work.addon (work.reportTool action input output record result) goal := by
  have counts : ∀ success tally, record tally success = job.record tally success := fun _ _ => by rw [records]
  have complains : ∀ detail, result ≠ .ok .success → Books job work.addon (do
      count (record · false)
      error (some work.addon) ("Couldn't ".toList ++ action ++ [' '] ++ input.text) (some detail)
      return false) goal := by
    intro detail failure
    apply Marks.bind
    apply books_count false (counts false)
    apply Marks.bind
    apply books_error
    exact marks_pure (failed detail failure)
  unfold reportTool
  split
  · apply Marks.bind
    apply books_count true (counts true)
    apply Marks.bind
    apply books_message
    exact marks_pure (succeeded rfl)
  · rename_i outcome notSuccess
    exact complains _ fun same => notSuccess (Except.ok.inj same)
  · exact complains _ nofun

/-- A call of a tool is the step in which a file is worked on. -/
theorem books_callTool {notes : Path → List Path} {action : Text} {call : Path → FileTree → ToolEffect} {output : Path → Path}
    {record : Tally → Bool → Tally}
    {record_comm : ∀ tally first second, record (record tally first) second = record (record tally second) first}
    {goal : Option (Except ToolError ToolOutcome) → List (Posting SizedFile) → Prop} (file : SizedFile)
    (succeeded : goal (some (.ok .success)) [.worked file (some true)])
    (failed : ∀ result, result ≠ .ok .success → goal (some result) [.worked file (some false)])
    (aborted : goal none [.worked file none]) :
    Books (toolJob addon notes action call output record record_comm) addon (callTool (call file.path)) goal := by
  refine .bind (books_act
    (fun world => some (.worked file (successOf (call file.path world.tree).reply)))
    (fun world => ⟨⟨rfl, rfl⟩, fun ready => ready_cancelNamed _ ⟨ready.live, ready.enrolled⟩⟩) fun world => ?_)
  change Books _ addon (takeReply (call file.path world.tree).reply) fun result more =>
    goal result ([.worked file (successOf (call file.path world.tree).reply)] ++ more)
  generalize (call file.path world.tree).reply = reply
  cases reply with
  | outcome outcome =>
      apply marks_pure
      by_cases success : outcome = .success
      · rw [success]
        exact succeeded
      · have isFailure : successOf (.outcome outcome) = some false := by
          unfold successOf
          split
          · rename_i same
            exact absurd (ToolReply.outcome.inj same) success
          · rename_i same
            cases same
          · rfl
        rw [isFailure]
        exact failed _ fun same => success (Except.ok.inj same)
  | error e =>
      apply marks_pure
      exact failed _ nofun
  | abort => exact marks_abort aborted

/-- Extract one archive. -/
def extractUnit (work : AddonWork) (destination : Path) (archive : SizedFile) : Run Unit := do
  let directory := extractionDirectory destination archive.path
  Activity.modify fun world => { world with extracted := world.extracted ++ [directory] }
  let result ← callTool
    (work.environment.tools.extract archive.path directory work.environment.settings.extractTimeout)
  let _ ← work.reportTool "extract" archive.path directory Tally.countExtraction result
  unitDone work.addon

theorem extractEach_eq (destination : Path) (files : List SizedFile) :
    work.extractEach destination files =
      eachUnit work.addon (work.extractUnit destination) files >>= fun _ => pure () := by
  induction files with
  | nil => rfl
  | cons archive rest ih =>
      unfold extractEach eachUnit
      rw [ih, bind_assoc]
      refine congrArg (Activity.bind _) (funext fun cancelled => ?_)
      cases cancelled with
      | true => rfl
      | false =>
          generalize eachUnit work.addon (work.extractUnit destination) rest = later
          change _ = (work.extractUnit destination archive >>= fun _ => later) >>= fun _ => pure ()
          simp only [extractUnit, bind_assoc]
          rfl

/-- Convert one binary config. -/
def convertUnit (work : AddonWork) (binary : SizedFile) : Run Unit := do
  let text := convertedConfig binary.path
  let result ← callTool
    (work.environment.tools.convert binary.path text work.environment.settings.convertTimeout)
  if ← work.reportTool "convert" binary.path text Tally.countConversion result then
    keepConverted text
  unitDone work.addon

theorem convertEach_eq (files : List SizedFile) :
    work.convertEach files = eachUnit work.addon work.convertUnit files >>= fun _ => pure () := by
  induction files with
  | nil => rfl
  | cons binary rest ih =>
      unfold convertEach eachUnit
      rw [ih, bind_assoc]
      refine congrArg (Activity.bind _) (funext fun cancelled => ?_)
      cases cancelled with
      | true => rfl
      | false =>
          generalize eachUnit work.addon work.convertUnit rest = later
          change _ = (work.convertUnit binary >>= fun _ => later) >>= fun _ => pure ()
          simp only [convertUnit, bind_assoc]
          refine congrArg (Activity.bind _) (funext fun result => congrArg (Activity.bind _) (funext fun kept => ?_))
          cases kept <;> rfl

/-- Extracting archives below a directory. -/
def extractionJob (work : AddonWork) (destination : Path) : Job SizedFile :=
  toolJob work.addon (fun archive => [extractionDirectory destination archive]) "extract" (fun archive => work.environment.tools.extract archive
    (extractionDirectory destination archive) work.environment.settings.extractTimeout)
    (extractionDirectory destination) Tally.countExtraction (fun _ first second => by cases first <;> cases second <;> rfl)

/-- Converting binary configs. -/
def conversionJob (work : AddonWork) : Job SizedFile :=
  toolJob work.addon (fun _ => []) "convert" (fun binary => work.environment.tools.convert binary (convertedConfig binary)
    work.environment.settings.convertTimeout) convertedConfig Tally.countConversion
    (fun _ first second => by cases first <;> cases second <;> rfl)

theorem treats_extractUnit (destination : Path) (archive : SizedFile) :
    Books (work.extractionJob destination) work.addon (work.extractUnit destination archive)
      (Treats (work.extractionJob destination) work.addon archive) := by
  apply Marks.bind
  apply books_noteDirectory
  apply Marks.bind
  apply books_callTool archive
  · apply Marks.bind
    apply books_reportTool rfl
    · exact fun _ => books_unitDone fun number => .inl ⟨⟨archive, true, _, number⟩, rfl, rfl, rfl, rfl⟩
    · exact fun _ failure => absurd rfl failure
  · intro result failure
    apply Marks.bind
    apply books_reportTool rfl
    · exact fun success => absurd success failure
    · exact fun detail _ => books_unitDone fun number =>
        .inl ⟨⟨archive, false, _, number⟩, rfl, ⟨detail, rfl⟩, rfl, rfl⟩
  · exact .inr ⟨rfl, rfl⟩

theorem skips_keepConverted (text : Path) : Skips job addon (keepConverted text) :=
  skips_modify (fun _ => rfl) (fun _ => rfl) (fun _ => rfl) (fun _ => rfl) fun _ => rfl

theorem treats_convertUnit (binary : SizedFile) :
    Books work.conversionJob work.addon (work.convertUnit binary)
      (Treats work.conversionJob work.addon binary) := by
  apply Marks.bind
  apply books_callTool binary
  · apply Marks.bind
    apply books_reportTool rfl
    · exact fun _ => (skips_keepConverted _).books_bind fun _ =>
        books_unitDone fun number => .inl ⟨⟨binary, true, _, number⟩, rfl, rfl, rfl, rfl⟩
    · exact fun _ failure => absurd rfl failure
  · intro result failure
    apply Marks.bind
    apply books_reportTool rfl
    · exact fun success => absurd success failure
    · exact fun detail _ => books_unitDone fun number =>
        .inl ⟨⟨binary, false, _, number⟩, rfl, ⟨detail, rfl⟩, rfl, rfl⟩
  · exact .inr ⟨rfl, rfl⟩

/-! ## Configs and saved files -/

/-- Reading configs. -/
def parsingJob (work : AddonWork) : Job Path where
  notes _ := []
  step config world :=
    world.cancelNamed (work.environment.reader config (config.parent?.getD config) world.tree).cancelled
  result config world :=
    some (work.environment.reader config (config.parent?.getD config) world.tree).result.isOk
  tells config succeeded event :=
    if succeeded then event = .message work.addon ("Parsed config ".toList ++ config.text)
    else ∃ detail, event = .error (some work.addon) ("Failed to parse config ".toList ++ config.text) (some detail)
  record := Tally.countParse
  record_comm _ first second := by cases first <;> cases second <;> rfl

theorem treats_parseUnit (config : Path) :
    Books work.parsingJob work.addon (work.parseUnit config) (Treats work.parsingJob work.addon config) := by
  apply Marks.bind
  apply books_act fun world => some (.worked config
    (some (work.environment.reader config (config.parent?.getD config) world.tree).result.isOk))
  · exact fun world => ⟨⟨rfl, rfl⟩, ready_cancelNamed _⟩
  intro world
  dsimp only
  generalize (work.environment.reader config (config.parent?.getD config) world.tree).result = read
  apply Marks.bind
  cases read with
  | ok parsed =>
      apply Marks.bind
      apply books_count true fun _ => rfl
      refine Skips.books_bind (skips_updateProgress work.addon ?_ ?_ ?_) fun _ => books_message ?_
      · exact fun _ => rfl
      · exact fun _ => rfl
      · exact fun _ => rfl
      · exact books_unitDone fun number => .inl ⟨⟨config, true, _, number⟩, rfl, rfl, rfl, rfl⟩
  | error e =>
      apply Marks.bind
      apply books_count false fun _ => rfl
      apply books_error
      exact books_unitDone fun number => .inl ⟨⟨config, false, _, number⟩, rfl, ⟨_, rfl⟩, rfl, rfl⟩

/-- Copying files to an entry of the cache. -/
def savingJob (work : AddonWork) (entry : Path) : Job (Text × Reference.SourceFile) where
  notes _ := []
  step item world := { world with tree := ((ReferenceCache.copy entry item.1 item.2).run world.tree).1 }
  result item world := some ((ReferenceCache.copy entry item.1 item.2).run world.tree).2.isOk
  tells item succeeded event :=
    if succeeded then ∃ target : Path,
      event = .message work.addon ("Copied ".toList ++ item.2.source.text ++ " to ".toList ++ target.text)
    else ∃ cause, event = work.copyFailure entry item.2 cause
  record := Tally.countCopy
  record_comm _ first second := by cases first <;> cases second <;> rfl

theorem treats_saveUnit (entry : Path) (item : Text × Reference.SourceFile) :
    Books (work.savingJob entry) work.addon (work.saveUnit entry item)
      (Treats (work.savingJob entry) work.addon item) := by
  apply Marks.bind
  apply books_act fun world => some (.worked item
    (some ((ReferenceCache.copy entry item.1 item.2).run world.tree).2.isOk))
  · exact fun world => ⟨⟨rfl, rfl⟩, fun ready => ⟨⟨ready.live, ready.enrolled⟩, rfl⟩⟩
  intro world
  dsimp only
  generalize ((ReferenceCache.copy entry item.1 item.2).run world.tree).2 = copied
  apply Marks.bind
  cases copied with
  | ok target =>
      apply Marks.bind
      apply books_count true fun _ => rfl
      apply books_message
      exact books_unitDone fun number => .inl ⟨⟨item, true, _, number⟩, rfl, ⟨target, rfl⟩, rfl, rfl⟩
  | error cause =>
      apply Marks.bind
      apply books_count false fun _ => rfl
      apply books_error
      exact books_unitDone fun number => .inl ⟨⟨item, false, _, number⟩, rfl, ⟨cause, rfl⟩, rfl, rfl⟩

end AddonWork

end AddonIndex.Indexing
