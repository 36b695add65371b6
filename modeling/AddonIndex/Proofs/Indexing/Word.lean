import AddonIndex.Indexing.Run
import AddonIndex.Proofs.Indexing.Work

/-!
# What the work on an addon reports

Each stage reports its start, details about the addon, and its finish. The work
on an addon is one of a few sequences of stages between the start and the finish
of the addon; only a failure that ends the run leaves the finish out.
-/

namespace AddonIndex.Indexing

open Activity

variable {α β : Type} {addon : Handle}

/-! ## Words -/

/-- The events of a stage: its start, details about the addon, its finish. -/
def IsStage (addon : Handle) (stage : Stage) (word : List Event) : Prop :=
  ∃ details, word = .stageStarted addon stage :: (details ++ [.stageFinished addon stage]) ∧
    ∀ event ∈ details, event.IsDetailOf addon

/-- The events of stages one after another. -/
inductive IsStages (addon : Handle) : List Stage → List Event → Prop
  | nil : IsStages addon [] []
  | cons {stage : Stage} {stages : List Stage} {word rest : List Event}
      (first : IsStage addon stage word) (later : IsStages addon stages rest) :
      IsStages addon (stage :: stages) (word ++ rest)

/-- The stages of an addon that is read from the cache. -/
def cachedStages : List Stage := [.parsing, .cleanup]

/-- The sequences of stages of an addon that is indexed. -/
def indexedStages : List (List Stage) :=
  [[.extraction, .cleanup], [.extraction, .conversion, .cleanup],
    [.extraction, .conversion, .parsing, .cleanup],
    [.extraction, .conversion, .parsing, .saving, .cleanup]]

/-- The events of the work on an addon: its start, one of the sequences of stages, and its
finish unless the run fails in it. -/
def IsBlock (addon : Handle) (ends : Bool) (word : List Event) : Prop :=
  ∃ stages ∈ cachedStages :: indexedStages, ∃ inner, IsStages addon stages inner ∧
    word = .addonStarted addon :: (inner ++ if ends then [.addonFinished addon] else [])

theorem IsStage.stages {stage : Stage} {word : List Event} (isStage : IsStage addon stage word) :
    IsStages addon [stage] word := by
  have single := IsStages.cons isStage .nil
  rwa [List.append_nil] at single

theorem IsStages.append {first second : List Stage} {word rest : List Event}
    (before : IsStages addon first word) (after : IsStages addon second rest) :
    IsStages addon (first ++ second) (word ++ rest) := by
  induction before with
  | nil => exact after
  | cons isStage _ ih =>
      rw [List.append_assoc]
      exact .cons isStage ih

theorem IsStages.finished_not_mem {stages : List Stage} {word : List Event}
    (isStages : IsStages addon stages word) : Event.finished ∉ word := by
  induction isStages with
  | nil => exact List.not_mem_nil
  | cons isStage _ ih =>
      obtain ⟨details, rfl, kinds⟩ := isStage
      intro member
      rcases List.mem_append.1 member with inStage | later
      · have inDetails : Event.finished ∈ details := by simpa using inStage
        exact kinds _ inDetails
      · exact ih later

/-- The end of the run is not part of a block. -/
theorem IsBlock.finished_not_mem {ends : Bool} {word : List Event}
    (isBlock : IsBlock addon ends word) : Event.finished ∉ word := by
  obtain ⟨_, _, inner, isStages, rfl⟩ := isBlock
  intro member
  have inInner : Event.finished ∈ inner := by cases ends <;> simpa using member
  exact isStages.finished_not_mem inInner

/-! ## Reporting -/

/-- Whether every execution of an activity comes to a result and reports a word that fits
the result. -/
def Tells (activity : Run α) (words : α → List Event → Prop) : Prop :=
  ∀ world moves after result, Executes Interference activity world moves after result →
    world.channel.Live → ∃ answer word, result = some answer ∧ after.channel.Live ∧
      after.channel.reported = world.channel.reported ++ word ∧ words answer word

/-- Whether no addon that is cancelled in one world is not so in another one. -/
def KeepsCancelled (before after : World) : Prop :=
  ∀ addon, (before.progressOf addon).cancelled = true → (after.progressOf addon).cancelled = true

/-- Whether an activity reports words that fit its result, and no step of it takes a
cancellation back. -/
structure Reports (activity : Run α) (words : α → List Event → Prop) : Prop where
  tells : Tells activity words
  keeps : Always KeepsCancelled activity

/-- Nothing that happens outside adds to what was reported. -/
theorem reported_of_interference {world after : World}
    (gap : Relation.ReflTransGen Interference world after) (live : world.channel.Live) :
    after.channel.Live ∧ after.channel.reported = world.channel.reported := by
  induction gap with
  | refl => exact ⟨live, rfl⟩
  | tail _ last ih =>
      obtain ⟨stillLive, same⟩ := ih
      cases last with
      | cancel addon => exact ⟨stillLive, same⟩
      | deliver => exact ⟨stillLive.deliverNext, (EventChannel.reported_deliverNext _).trans same⟩

/-- Nothing that happens outside changes files or forgets the temporary directory. -/
theorem files_of_interference {world after : World}
    (gap : Relation.ReflTransGen Interference world after) :
    after.tree = world.tree ∧ after.tempRoot = world.tempRoot := by
  induction gap with
  | refl => exact ⟨rfl, rfl⟩
  | tail _ last ih => cases last <;> exact ih

theorem Reports.mono {activity : Run α} {words other : α → List Event → Prop}
    (reports : Reports activity words) (weaker : ∀ answer word, words answer word → other answer word) :
    Reports activity other where
  keeps := reports.keeps
  tells world moves after result execution live := by
    obtain ⟨answer, word, rfl, stillLive, reported, fits⟩ :=
      reports.tells world moves after result execution live
    exact ⟨answer, word, rfl, stillLive, reported, weaker answer word fits⟩

theorem reports_pure {answer : α} {words : α → List Event → Prop} (fits : words answer []) :
    Reports (pure answer : Run α) words where
  keeps := trivial
  tells world moves after result execution live := by
    obtain ⟨-, rfl, gap⟩ := executes_pure_iff.1 execution
    obtain ⟨stillLive, same⟩ := reported_of_interference gap live
    exact ⟨answer, [], rfl, stillLive, by rw [same, List.append_nil], fits⟩

theorem reports_answer (answer : α) :
    Reports (pure answer : Run α) fun found word => found = answer ∧ word = [] :=
  reports_pure ⟨rfl, rfl⟩

/-- An execution of a sequence ends with its first activity or goes on with the second. -/
theorem executes_bind_cases {outside : World → World → Prop} {first : Run α} {next : α → Run β}
    {world after : World} {moves : List (Move World)} {result : Option β}
    (execution : Executes outside (first >>= next) world moves after result) :
    (∃ before later middle found, moves = before ++ later ∧
      Executes outside first world before middle (some found) ∧
      Executes outside (next found) middle later after result) ∨
    (Executes outside first world moves after none ∧ result = none) := by
  obtain ⟨traced, chain⟩ := execution
  rcases traces_bind_iff.1 traced with ⟨before, later, found, rfl, left, right⟩ | ⟨aborted, rfl⟩
  · obtain ⟨middle, leftChain, rightChain⟩ := chain_append_iff.1 chain
    exact .inl ⟨before, later, middle, found, rfl, ⟨left, leftChain⟩, right, rightChain⟩
  · exact .inr ⟨⟨aborted, chain⟩, rfl⟩

/-- What happens outside after an activity may be counted to it. -/
theorem executes_gap_right {activity : Run α} {world middle after : World} {moves : List (Move World)}
    {result : Option α} (execution : Executes Interference activity world moves middle result)
    (gap : Relation.ReflTransGen Interference middle after) :
    Executes Interference activity world moves after result := by
  refine ⟨execution.1, ?_⟩
  have chain := chain_append_iff.2 ⟨middle, execution.2, show Chain Interference middle [] after from gap⟩
  rwa [List.append_nil] at chain

/-- A sequence reports what the first activity reports and then what the second one reports. -/
theorem Reports.bind {first : Run α} {next : α → Run β} {words : α → List Event → Prop}
    {later : α → β → List Event → Prop} (reports : Reports first words)
    (nextReports : ∀ a, Reports (next a) (later a)) :
    Reports (first >>= next) fun answer word =>
      ∃ found left right, word = left ++ right ∧ words found left ∧ later found answer right where
  keeps := reports.keeps.bind fun a => (nextReports a).keeps
  tells world moves after result execution live := by
    rcases executes_bind_cases execution with
      ⟨before, rest, middle, found, rfl, left, right⟩ | ⟨aborted, -⟩
    · obtain ⟨_, word, same, stillLive, reported, fits⟩ :=
        reports.tells world before middle (some found) left live
      cases same
      obtain ⟨answer, more, rfl, liveLater, reportedMore, moreFits⟩ :=
        (nextReports found).tells middle rest after result right stillLive
      exact ⟨answer, word ++ more, rfl, liveLater, by rw [reportedMore, reported, List.append_assoc],
        found, word, more, rfl, fits, moreFits⟩
    · obtain ⟨_, _, none, -⟩ := reports.tells world moves after none aborted live
      cases none

theorem reports_submit (event : Event) : Reports (submit event) fun _ word => word = [event] where
  keeps := always_modify fun _ _ cancelled => cancelled
  tells world moves after result execution live := by
    obtain ⟨taken, -, rfl, before, rest⟩ := executes_modify_iff.1 execution
    obtain ⟨stillLive, same⟩ := reported_of_interference before live
    obtain ⟨liveLater, sameLater⟩ := reported_of_interference rest (stillLive.submit event)
    exact ⟨(), [event], rfl, liveLater,
      by rw [sameLater, EventChannel.reported_submit stillLive, same], rfl⟩

/-- An activity that always has a result reports what its steps allow. -/
theorem reports_of_always {allowed : Event → Prop} {activity : Run α}
    (always : Always (Proceeds allowed) activity) (returns : Returns activity) :
    Reports activity fun _ word => ∀ event ∈ word, allowed event where
  keeps := always.mono fun _ _ proceeds => proceeds.cancelled
  tells world moves after result execution live := by
    obtain ⟨answer, rfl⟩ := returns.of_traces execution.1
    have proceeds : Proceeds allowed world after :=
      always.relates Proceeds.refl (fun _ _ _ => Proceeds.trans)
        (fun _ _ => Proceeds.of_interference) execution
    obtain ⟨events, reported, kinds⟩ := proceeds.reports live
    exact ⟨answer, events, rfl, proceeds.live live, reported, kinds⟩

/-- Whether an activity comes to a result and reports nothing. -/
structure Quiet (activity : Run α) : Prop where
  steps : Always (Proceeds fun _ => False) activity
  returns : Returns activity

theorem quiet_inspect (look : World → α) : Quiet (inspect look) :=
  ⟨always_inspect_world look, returns_inspect look⟩

theorem quiet_note (line : Text) : Quiet (note line) :=
  ⟨always_note line, returns_modify _⟩

theorem quiet_count (change : Tally → Tally) : Quiet (count change) :=
  ⟨always_count change, returns_modify _⟩

theorem quiet_perform (operation : FileOp α) : Quiet (perform operation) :=
  ⟨always_perform operation, returns_act _⟩

theorem quiet_modify {change : World → World}
    (channel : ∀ world, (change world).channel = world.channel)
    (progress : ∀ world, (change world).progress = world.progress) : Quiet (modify change) :=
  ⟨always_modify_quiet channel progress, returns_modify _⟩

theorem quiet_updateProgress {change : Progress → Progress}
    (keeps : ∀ progress, progress.cancelled = true → (change progress).cancelled = true) :
    Quiet (modify (World.updateProgress · addon change)) :=
  ⟨always_updateProgress keeps, returns_modify _⟩

theorem quiet_pure (answer : α) : Quiet (pure answer : Run α) :=
  ⟨trivial, trivial⟩

theorem Quiet.bind {first : Run α} {next : α → Run β} (quiet : Quiet first)
    (later : ∀ a, Quiet (next a)) : Quiet (first >>= next) :=
  ⟨quiet.steps.bind fun a => (later a).steps, quiet.returns.bind fun a => (later a).returns⟩

theorem Quiet.reports {activity : Run α} (quiet : Quiet activity) :
    Reports activity fun _ word => word = [] :=
  (reports_of_always quiet.steps quiet.returns).mono fun _ _ none =>
    List.eq_nil_iff_forall_not_mem.2 none

/-- What precedes an activity quietly leaves what it reports. -/
theorem Quiet.reports_bind {first : Run α} {next : α → Run β} {words : β → List Event → Prop}
    (quiet : Quiet first) (reports : ∀ a, Reports (next a) words) : Reports (first >>= next) words := by
  refine (quiet.reports.bind reports).mono ?_
  rintro answer _ ⟨_, _, word, rfl, rfl, fits⟩
  exact fits

theorem Concerns.reports {activity : Run α} (concerns : Concerns addon activity) :
    Reports activity fun _ word => ∀ event ∈ word, event.IsDetailOf addon :=
  reports_of_always concerns.details concerns.returns

/-- Work that concerns the addon is reported as a stage. -/
theorem reports_withStage {stage : Stage} {inner : Run α} (concerns : Concerns addon inner) :
    Reports (withStage addon stage inner) fun _ word => IsStage addon stage word := by
  refine Reports.mono ((reports_submit _).bind fun _ => concerns.reports.bind fun answer =>
    (reports_submit _).bind fun _ => reports_answer answer) ?_
  rintro answer _ ⟨_, _, _, rfl, rfl, _, details, _, rfl, kinds, _, _, _, rfl, rfl, -, rfl⟩
  exact ⟨details, rfl, kinds⟩

/-- A world after one more event was submitted. -/
def World.submit (world : World) (event : Event) : World :=
  { world with channel := world.channel.submit event }

/-- The work of a stage lies between the moves that report its start and its finish. -/
structure InStage (addon : Handle) (stage : Stage) (inner : Run α) (world : World) (moves : List (Move World))
    (after : World) (answer : α) (starting middle ending : World) (inside : List (Move World)) : Prop where
  moves : moves = (starting, starting.submit (.stageStarted addon stage)) ::
    (inside ++ [(ending, ending.submit (.stageFinished addon stage))])
  starts : Relation.ReflTransGen Interference world starting
  executes : Executes Interference inner (starting.submit (.stageStarted addon stage)) inside middle
    (some answer)
  ends : Relation.ReflTransGen Interference middle ending
  rests : Relation.ReflTransGen Interference (ending.submit (.stageFinished addon stage)) after

theorem exists_inStage {stage : Stage} {inner : Run α} {world after : World} {moves : List (Move World)}
    {answer : α}
    (execution : Executes Interference (withStage addon stage inner) world moves after (some answer)) :
    ∃ starting middle ending inside,
      InStage addon stage inner world moves after answer starting middle ending inside := by
  obtain ⟨starting, _, rfl, starts, execution⟩ := executes_modify_bind_iff.1 execution
  obtain ⟨inside, _, middle, found, rfl, executes, execution⟩ := execution.bind_some
  obtain ⟨ending, _, rfl, ends, execution⟩ := executes_modify_bind_iff.1 execution
  obtain ⟨rfl, same, rests⟩ := executes_pure_iff.1 execution
  cases same
  exact ⟨starting, middle, ending, inside, rfl, starts, executes, ends, rests⟩

/-- What the work of a stage reports is reported between its start and its finish. -/
theorem InStage.reported {stage : Stage} {inner : Run α} {world after starting middle ending : World}
    {moves inside : List (Move World)} {answer : α} {word : List Event}
    (inStage : InStage addon stage inner world moves after answer starting middle ending inside)
    (live : world.channel.Live) (middleLive : middle.channel.Live)
    (told : middle.channel.reported =
      (starting.submit (.stageStarted addon stage)).channel.reported ++ word) :
    after.channel.reported =
      world.channel.reported ++ .stageStarted addon stage :: (word ++ [.stageFinished addon stage]) := by
  obtain ⟨startingLive, startingReported⟩ := reported_of_interference inStage.starts live
  obtain ⟨endingLive, endingReported⟩ := reported_of_interference inStage.ends middleLive
  obtain ⟨-, afterReported⟩ := reported_of_interference inStage.rests
    (endingLive.submit (.stageFinished addon stage))
  calc after.channel.reported = (ending.channel.submit (.stageFinished addon stage)).reported := afterReported
    _ = middle.channel.reported ++ [.stageFinished addon stage] := by
        rw [EventChannel.reported_submit endingLive, endingReported]
    _ = (starting.channel.submit (.stageStarted addon stage)).reported ++ word ++
          [.stageFinished addon stage] := congrArg (· ++ _) told
    _ = _ := by
        rw [EventChannel.reported_submit startingLive, startingReported]
        simp

/-- Whether an activity is a stage with work that concerns the addon. -/
def Stages (addon : Handle) (stage : Stage) (activity : Run α) : Prop :=
  ∃ inner, activity = withStage addon stage inner ∧ Concerns addon inner

theorem Stages.reports {stage : Stage} {activity : Run α} (stages : Stages addon stage activity) :
    Reports activity fun _ word => IsStage addon stage word := by
  obtain ⟨inner, rfl, concerns⟩ := stages
  exact reports_withStage concerns

theorem Stages.returns {stage : Stage} {activity : Run α} (stages : Stages addon stage activity) :
    Returns activity := by
  obtain ⟨inner, rfl, concerns⟩ := stages
  exact (returns_modify _).bind fun _ => concerns.returns.bind fun _ => (returns_modify _).bind fun _ => trivial

namespace AddonWork

variable {work : AddonWork}

/-! ## The stages -/

theorem stages_extract (tempRoot : Path) : Stages work.addon .extraction (work.extract tempRoot) := by
  refine ⟨_, rfl, (concerns_inspect _).bind fun container => ?_⟩
  split
  · exact concerns_pure _
  · exact (concerns_warning _ _).bind fun _ => concerns_pure _
  · refine (concerns_inspect _).bind fun files => ?_
    split
    · exact concerns_pure _
    · refine (concerns_note _).bind fun _ => (concerns_beginWork _).bind fun _ =>
        (concerns_shareOut fun bucket => details_extractEach _ bucket).bind fun shared => ?_
      split
      · exact concerns_pure _
      · exact concerns_status.bind fun _ => concerns_pure _

theorem stages_convert : Stages work.addon .conversion work.convert := by
  refine ⟨_, rfl, (concerns_inspect _).bind fun directories =>
    (concerns_findConfigs directories).bind fun found => ?_⟩
  split
  · exact concerns_pure _
  · refine (concerns_noteTexts _).bind fun _ => (concerns_beginWork _).bind fun _ =>
      (concerns_modify_quiet ?_ ?_).bind fun _ =>
        (concerns_shareOut fun bucket => details_convertEach bucket).bind fun shared => ?_
    · exact fun _ => rfl
    · exact fun _ => rfl
    · split
      · exact concerns_pure _
      · exact (concerns_inspect _).bind fun _ => concerns_status.bind fun _ => concerns_pure _

theorem stages_parse (configs : List Path) : Stages work.addon .parsing (work.parse configs) :=
  ⟨_, rfl, (concerns_beginWork _).bind fun _ => concerns_parseEach configs⟩

theorem stages_save : Stages work.addon .saving work.save := by
  refine ⟨_, rfl, (concerns_perform _).bind fun prepared => ?_⟩
  split
  · exact (concerns_error _ _).bind fun _ => concerns_pure _
  · refine (concerns_setReference _).bind fun _ => (concerns_inspect _).bind fun directories =>
      (concerns_inspect _).bind fun plan => (concerns_beginWork _).bind fun _ =>
        (concerns_saveEach _ plan).bind fun saved => ?_
    split
    · exact concerns_pure _
    · refine (concerns_perform _).bind fun marked => ?_
      split
      · exact concerns_pure _
      · exact (concerns_error _ _).bind fun _ => concerns_pure _

theorem stages_cleanup (tempRoot : Path) : Stages work.addon .cleanup (work.cleanup tempRoot) :=
  ⟨_, rfl, (concerns_inspect _).bind fun directories =>
    (concerns_deleteEach directories).bind fun _ => (concerns_perform _).bind fun _ => concerns_pure _⟩

/-! ## The work on an addon -/

/-- Reading from the cache is one stage, or nothing if the entry is of no use. -/
theorem reports_readFromCache :
    Reports work.readFromCache fun found word =>
      IsStages work.addon (if found then [.parsing] else []) word := by
  refine (quiet_inspect _).reports_bind fun state => ?_
  split
  · exact reports_pure .nil
  · exact (quiet_note _).reports_bind fun _ => reports_pure .nil
  · refine (quiet_note _).reports_bind fun _ => (quiet_count _).reports_bind fun _ =>
      (quiet_updateProgress ?_).reports_bind fun _ => (quiet_inspect _).reports_bind fun configs => ?_
    · exact fun _ cancelled => cancelled
    · refine ((stages_parse configs).reports.bind fun _ => reports_answer true).mono ?_
      rintro _ _ ⟨_, word, _, rfl, isStage, rfl, rfl⟩
      rw [List.append_nil]
      exact isStage.stages

/-- Whether an activity goes on from some stages to one of the sequences of an addon that is
indexed, up to the cleanup. -/
def GoesOn (addon : Handle) (stages : List Stage) (activity : Run α) : Prop :=
  Reports activity fun _ word =>
    ∃ more, stages ++ more ++ [.cleanup] ∈ indexedStages ∧ IsStages addon more word

theorem goesOn_pure {stages : List Stage} (answer : α)
    (listed : stages ++ [.cleanup] ∈ indexedStages) :
    GoesOn addon stages (pure answer : Run α) :=
  reports_pure ⟨[], by rwa [List.append_nil], .nil⟩

/-- A stage is followed by what goes on from it. -/
theorem GoesOn.bind {stages : List Stage} {stage : Stage} {first : Run α} {next : α → Run β}
    (reports : Reports first fun _ word => IsStage addon stage word)
    (later : ∀ a, GoesOn addon (stages ++ [stage]) (next a)) :
    GoesOn addon stages (first >>= next) := by
  refine (reports.bind later).mono ?_
  rintro answer _ ⟨_, word, rest, rfl, isStage, more, listed, isStages⟩
  refine ⟨stage :: more, ?_, .cons isStage isStages⟩
  simpa using listed

/-- Indexing goes on until it breaks off after some stage. -/
theorem goesOn_index (tempRoot : Path) : GoesOn work.addon [] (work.index tempRoot) := by
  refine GoesOn.bind (stages_extract tempRoot).reports fun extracted => ?_
  split
  · exact goesOn_pure _ (by decide)
  · exact goesOn_pure _ (by decide)
  · refine GoesOn.bind stages_convert.reports fun converted => ?_
    split
    · exact goesOn_pure _ (by decide)
    · exact goesOn_pure _ (by decide)
    · refine GoesOn.bind (stages_parse _).reports fun parsed => ?_
      split
      · exact goesOn_pure _ (by decide)
      · exact GoesOn.bind stages_save.reports fun _ => goesOn_pure _ (by decide)

/-- An addon is read from the cache in one stage, or indexed. -/
theorem reports_readOrIndex (tempRoot : Path) :
    Reports (work.readOrIndex tempRoot) fun _ word =>
      ∃ stages, stages ++ [.cleanup] ∈ cachedStages :: indexedStages ∧
        IsStages work.addon stages word := by
  have rest : ∀ found : Bool,
      Reports (if found then return .ok .completed else work.index tempRoot) fun _ word =>
        ∃ stages, IsStages work.addon stages word ∧
          if found then stages = [] else stages ++ [.cleanup] ∈ indexedStages := by
    intro found
    cases found with
    | true => exact reports_pure ⟨[], .nil, rfl⟩
    | false =>
        refine (goesOn_index tempRoot).mono ?_
        rintro _ word ⟨more, listed, isStages⟩
        exact ⟨more, isStages, listed⟩
  refine (reports_readFromCache.bind rest).mono ?_
  rintro _ _ ⟨found, word, more, rfl, cached, stages, isStages, listed⟩
  cases found with
  | true =>
      obtain rfl : stages = [] := listed
      exact ⟨[.parsing], by decide, cached.append isStages⟩
  | false => exact ⟨stages, List.mem_cons_of_mem _ listed, cached.append isStages⟩

end AddonWork

theorem reports_finishAddon (result : Except RunFailure StageStatus) :
    Reports (finishAddon addon result) fun answer word =>
      word = if answer.isOk then [.addonFinished addon] else [] := by
  cases result with
  | error failure => exact reports_pure rfl
  | ok status =>
      refine ((reports_submit _).bind fun _ => (quiet_note _).reports_bind fun _ =>
        reports_answer (Except.ok ())).mono ?_
      rintro _ _ ⟨_, _, _, rfl, rfl, rfl, rfl⟩
      rfl

/-- The work on an addon is reported as a block. The finish is missing exactly if the run fails
in it. -/
theorem reports_indexAddon (work : AddonWork) (tempRoot : Path) :
    Reports (indexAddon work tempRoot) fun answer word => IsBlock work.addon answer.isOk word := by
  refine ((reports_submit _).bind fun _ => (quiet_note _).reports_bind fun _ =>
    (quiet_modify ?_ ?_).reports_bind fun _ => (work.reports_readOrIndex tempRoot).bind fun result =>
      (work.stages_cleanup tempRoot).reports.bind fun _ => reports_finishAddon result).mono ?_
  · exact fun _ => rfl
  · exact fun _ => rfl
  · rintro answer _ ⟨_, _, _, rfl, rfl, _, inner, _, rfl, ⟨stages, listed, isStages⟩, _, last, _, rfl,
      cleanup, rfl⟩
    refine ⟨stages ++ [.cleanup], listed, inner ++ last, isStages.append cleanup.stages, ?_⟩
    simp

end AddonIndex.Indexing
