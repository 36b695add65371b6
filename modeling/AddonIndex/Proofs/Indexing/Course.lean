import AddonIndex.Proofs.Indexing.Sharing

/-!
# The course of the work on an addon

The work on an uncancelled addon takes one scene to another: its archives are
extracted, the binary configs among the extracted files are converted, the text
configs are read, and files are saved. Workers may take any turns. If no error is
reported, every call of a tool, every config and every copy was a success.
-/

namespace AddonIndex.Indexing

open Activity

variable {α β : Type} {addon : Handle} {scene before after : Scene}

/-- Whether an activity leads from a world to another one with an answer, the addon not being
cancelled. -/
structure Completes (addon : Handle) (activity : Run α) (before : World) (answer : α) (after : World) :
    Prop where
  live : before.channel.Live
  uncancelled : Uncancelled addon after
  executes : ∃ moves, Executes Interference activity before moves after (some answer)

/-- What an activity attains holds of every completion of it. -/
theorem Completes.attained {activity : Run α} {world next : World} {answer : α}
    (completes : Completes addon activity world answer next) {goal : α → Scene → Prop}
    (attains : Attains addon activity (world.scene addon) goal) (follow : Always Follows activity) :
    goal answer (next.scene addon) := by
  obtain ⟨moves, execution⟩ := completes.executes
  obtain ⟨_, same, reached⟩ := attains world moves next _ execution (follow.of_traces execution.1)
    completes.live completes.uncancelled rfl
  cases same
  exact reached

/-- An activity that runs to an answer completes. -/
theorem completes_run {activity : Run α} {world : World} {answer : α} (live : world.channel.Live)
    (ended : (activity.run world).2 = some answer) (uncancelled : Uncancelled addon (activity.run world).1) :
    Completes addon activity world answer (activity.run world).1 := by
  obtain ⟨moves, execution⟩ : ∃ moves, Executes Interference activity world moves _ _ :=
    executes_run activity world
  rw [ended] at execution
  exact ⟨live, uncancelled, moves, execution⟩

/-- If a sequence leaves the addon uncancelled, so does its first activity, and what follows begins in
the world that this led to. -/
theorem completes_bind {first : Run α} {next : α → Run β} {answer : β} {world ended : World}
    {moves : List (Move World)}
    (execution : Executes Interference (first >>= next) world moves ended (some answer))
    (follow : Always Follows (first >>= next)) (live : world.channel.Live)
    (uncancelled : Uncancelled addon ended) :
    ∃ before later middle found, moves = before ++ later ∧
      Executes Interference first world before middle (some found) ∧
      Executes Interference (next found) middle later ended (some answer) ∧
      Completes addon first world found middle ∧ Completes addon (next found) middle answer ended := by
  have follows := follow.of_traces execution.1
  obtain ⟨before, later, middle, found, rfl, left, right⟩ := execution.bind_some
  have leads := follows_of_chain left.2 fun move member => follows move (List.mem_append_left _ member)
  have goesOn := follows_of_chain right.2 fun move member => follows move (List.mem_append_right _ member)
  exact ⟨before, later, middle, found, rfl, left, right,
    ⟨live, uncancelled.of_follows goesOn, before, left⟩, ⟨leads.live live, uncancelled, later, right⟩⟩

theorem Completes.bind_cases {first : Run α} {next : α → Run β} {answer : β} {world ended : World}
    (completes : Completes addon (first >>= next) world answer ended)
    (follow : Always Follows (first >>= next)) :
    ∃ found middle, Completes addon first world found middle ∧
      Completes addon (next found) middle answer ended := by
  obtain ⟨live, uncancelled, moves, execution⟩ := completes
  obtain ⟨-, -, middle, found, -, -, -, first, second⟩ := completes_bind execution follow live uncancelled
  exact ⟨found, middle, first, second⟩

/-- An answer that is given at once changes nothing. -/
theorem Completes.pure_right {first : Run α} {found : α} {given answer : β} {world middle ended : World}
    (completes : Completes addon first world found middle)
    (rest : Completes addon (pure given : Run β) middle answer ended) :
    given = answer ∧ Completes addon first world found ended := by
  obtain ⟨moves, traced, chain⟩ := completes.executes
  obtain ⟨_, execution⟩ := rest.executes
  obtain ⟨-, same, gap⟩ := executes_pure_iff.1 execution
  refine ⟨(Option.some.inj same).symm, completes.live, rest.uncancelled, moves ++ [], ?_, ?_⟩
  · rwa [List.append_nil]
  · exact chain_append_iff.2 ⟨middle, chain, gap⟩

/-- Errors are not taken back by an activity. -/
theorem Completes.errors_le {activity : Run α} {answer : α} {world ended : World}
    (completes : Completes addon activity world answer ended) (follow : Always Follows activity) :
    world.errors ≤ ended.errors := by
  obtain ⟨moves, traced, chain⟩ := completes.executes
  exact errors_le_of_follows (follows_of_chain chain (follow.of_traces traced)) completes.live

/-! ## Steps that speak of one addon -/

/-- Whether every step of an activity reports at most something about an addon. -/
abbrev SpeaksOf (addon : Handle) (activity : Run α) : Prop :=
  Always (Proceeds fun event => event.addon? = some addon) activity

theorem addon?_of_isDetailOf {event : Event} (isDetail : event.IsDetailOf addon) : event.addon? = some addon := by
  cases event with
  | error other => exact isDetail
  | message other | warning other | totalProgress other | currentProgress other => exact congrArg some isDetail
  | _ => exact isDetail.elim

theorem SpeaksOf.proceeds {activity : Run α} {allowed : Event → Prop} (speaks : SpeaksOf addon activity)
    (isAllowed : ∀ event : Event, event.addon? = some addon → allowed event) :
    Always (Proceeds allowed) activity :=
  speaks.mono fun _ _ proceeds => proceeds.mono isAllowed

theorem SpeaksOf.follow {activity : Run α} (speaks : SpeaksOf addon activity) : Always Follows activity :=
  speaks.proceeds fun _ _ => trivial

theorem Concerns.speaksOf {activity : Run α} (concerns : Concerns addon activity) : SpeaksOf addon activity :=
  concerns.details.mono fun _ _ proceeds => proceeds.mono fun _ => addon?_of_isDetailOf

theorem Stages.speaksOf {stage : Stage} {activity : Run α} (stages : Stages addon stage activity) :
    SpeaksOf addon activity := by
  obtain ⟨inner, rfl, concerns⟩ := stages
  refine (always_submit ?_).bind fun _ => concerns.speaksOf.bind fun _ =>
    (always_submit ?_).bind fun _ => always_pure _ <;> exact rfl

theorem Stages.follow {stage : Stage} {activity : Run α} (stages : Stages addon stage activity) :
    Always Follows activity :=
  stages.speaksOf.follow

/-! ## Stages with workers -/

namespace AddonWork

variable {work : AddonWork}

/-- Whether the archives of an addon were extracted. -/
def Extracts (work : AddonWork) (tempRoot : Path) (before after : Scene) : Prop :=
  ∃ container files, archiveContainer? work.addon.directory before.tree = .ok (some container) ∧
    archives container before.tree = .ok files ∧
    SharedOut (work.extractionDuty (tempRoot.join work.addon.name)) extractionHabit files before after

/-- Whether the binary configs among the extracted files were converted. -/
def ConvertsAll (work : AddonWork) (before after : Scene) : Prop :=
  SharedOut work.conversionDuty conversionHabit (allConfigs before.extracted before.tree).binaries
    { before with converted := (allConfigs before.extracted before.tree).texts } after

/-- Extraction comes to its end with the archives shared out, unless there are none or a directory cannot be listed. -/
theorem attains_extractBy {tempRoot : Path} {fits : List Path → Option Unit → List Deed → Prop}
    {goal : Except RunFailure StageStatus → Scene → Prop}
    (each : ∀ bucket, Performs (work.extractionDuty (tempRoot.join work.addon.name)) work.addon
      (work.extractEach (tempRoot.join work.addon.name) bucket) (fits (bucket.map SizedFile.path)))
    (unreadable : ∀ cause, archiveContainer? work.addon.directory scene.tree = .error cause →
      goal (.error (.addonDirectoryUnreadable work.addon.directory cause)) scene)
    (nothing : archiveContainer? work.addon.directory scene.tree = .ok none → goal (.ok .stopped) scene)
    (containerUnreadable : ∀ container cause, archiveContainer? work.addon.directory scene.tree = .ok (some container) →
      archives container scene.tree = .error cause → goal (.error (.addonDirectoryUnreadable container cause)) scene)
    (refused : ∀ refusal after, goal (.error (.workerRefused refusal)) after)
    (reached : ∀ container files after, archiveContainer? work.addon.directory scene.tree = .ok (some container) →
      archives container scene.tree = .ok files →
      Shared (work.extractionDuty (tempRoot.join work.addon.name)) fits files scene after →
      goal (.ok .completed) after) :
    Attains work.addon (work.extract tempRoot) scene goal := by
  refine attains_withStage (.bind (attains_lookAt ?_))
  split
  · rename_i cause looked
    exact attains_pure (unreadable cause looked)
  · rename_i noContainer
    exact .bind (attains_warning (attains_pure (nothing noContainer)))
  · rename_i container isContainer
    refine .bind (attains_lookAt ?_)
    split
    · rename_i cause looked
      exact attains_pure (containerUnreadable container cause isContainer looked)
    · rename_i files areArchives
      refine .bind (attains_note (.bind (attains_beginWork (.bind (attains_share each
        (fun refusal after => ?_) fun after shared => ?_)))))
      · exact attains_pure (refused _ _)
      · exact .bind (attains_status (attains_pure (reached container files after isContainer areArchives shared)))

theorem attains_extract {tempRoot : Path} {goal : Except RunFailure StageStatus → Scene → Prop}
    (failed : ∀ failure after, goal (.error failure) after)
    (nothing : archiveContainer? work.addon.directory scene.tree = .ok none → goal (.ok .stopped) scene)
    (reached : ∀ after, work.Extracts tempRoot scene after → goal (.ok .completed) after) :
    Attains work.addon (work.extract tempRoot) scene goal :=
  attains_extractBy (performs_extractEach _) (fun _ _ => failed _ _) nothing (fun _ _ _ _ => failed _ _)
    (fun _ _ => failed _ _) fun container files after isContainer areArchives shared =>
      reached after ⟨container, files, isContainer, areArchives, shared⟩

/-- Conversion comes to its end with the binary configs shared out. -/
theorem attains_convertBy {fits : List Path → Option Unit → List Deed → Prop}
    {goal : Except RunFailure (StageStatus × List Path) → Scene → Prop}
    (each : ∀ bucket, Performs work.conversionDuty work.addon (work.convertEach bucket)
      (fits (bucket.map SizedFile.path)))
    (refused : ∀ refusal after, goal (.error (.workerRefused refusal)) after)
    (reached : ∀ after, Shared work.conversionDuty fits (allConfigs scene.extracted scene.tree).binaries
      { scene with converted := (allConfigs scene.extracted scene.tree).texts } after →
      goal (.ok (.completed, Path.sort after.converted)) after) :
    Attains work.addon work.convert scene goal := by
  refine attains_withStage (.bind (attains_inspect fun world _ begins => ?_))
  rw [show world.extracted = scene.extracted from congrArg Scene.extracted begins]
  refine .bind (attains_findConfigs (.bind (attains_noteTexts (.bind (attains_beginWork
    (.bind (attains_modify fun world _ _ begins => ?_)))))))
  have noted : (World.scene work.addon
      { world with converted := (allConfigs scene.extracted scene.tree).texts }) =
      { scene with converted := (allConfigs scene.extracted scene.tree).texts } := by
    rw [← begins]
    rfl
  rw [noted]
  refine .bind (attains_share each (fun refusal after => attains_pure (refused _ _)) fun after shared => ?_)
  refine .bind (attains_inspect fun world _ begins => ?_)
  rw [show world.converted = after.converted from congrArg Scene.converted begins]
  exact .bind (attains_status (attains_pure (reached after shared)))

theorem attains_convert {goal : Except RunFailure (StageStatus × List Path) → Scene → Prop}
    (refused : ∀ failure after, goal (.error failure) after)
    (reached : ∀ after, work.ConvertsAll scene after →
      goal (.ok (.completed, Path.sort after.converted)) after) :
    Attains work.addon work.convert scene goal :=
  attains_convertBy performs_convertEach (fun _ _ => refused _ _) reached

/-! ## The work on an addon speaks of it -/

theorem speaksOf_readFromCache : SpeaksOf work.addon work.readFromCache := by
  refine (always_inspect_world _).bind fun state => ?_
  split
  · exact always_pure _
  · exact (always_note _).bind fun _ => always_pure _
  · refine (always_note _).bind fun _ => (always_count _).bind fun _ =>
      (concerns_setReference _).speaksOf.bind fun _ => (always_inspect_world _).bind fun configs =>
        (stages_parse configs).speaksOf.bind fun _ => always_pure _

theorem speaksOf_parseAndSave (configs : List Path) :
    SpeaksOf work.addon (do
      match ← work.parse configs with
      | .stopped => return .ok .stopped
      | .completed => return .ok (← work.save) : Run (Except RunFailure StageStatus)) := by
  refine (stages_parse configs).speaksOf.bind fun parsed => ?_
  split
  · exact always_pure _
  · exact stages_save.speaksOf.bind fun _ => always_pure _

theorem speaksOf_convertAndSave :
    SpeaksOf work.addon (do
      match ← work.convert with
      | .error failure => return .error failure
      | .ok (.stopped, _) => return .ok .stopped
      | .ok (.completed, configs) =>
          match ← work.parse configs with
          | .stopped => return .ok .stopped
          | .completed => return .ok (← work.save) : Run (Except RunFailure StageStatus)) := by
  refine stages_convert.speaksOf.bind fun converted => ?_
  split
  · exact always_pure _
  · exact always_pure _
  · exact speaksOf_parseAndSave _

theorem speaksOf_index (tempRoot : Path) : SpeaksOf work.addon (work.index tempRoot) := by
  refine (stages_extract tempRoot).speaksOf.bind fun extracted => ?_
  split
  · exact always_pure _
  · exact always_pure _
  · exact speaksOf_convertAndSave

theorem speaksOf_readOrIndex (tempRoot : Path) : SpeaksOf work.addon (work.readOrIndex tempRoot) := by
  refine speaksOf_readFromCache.bind fun found => ?_
  split
  · exact always_pure _
  · exact speaksOf_index tempRoot

end AddonWork

/-! ## Without errors -/

/-- A copy succeeds, or an error is reported. -/
theorem copy_cases (entry : Path) (scene : Scene) (item : Text × Reference.SourceFile) :
    (∃ tree target, (ReferenceCache.copy entry item.1 item.2).run scene.tree = (tree, .ok target) ∧
      scene.copy entry item = { scene with tree }) ∨
    scene.errors < (scene.copy entry item).errors := by
  unfold Scene.copy
  generalize (ReferenceCache.copy entry item.1 item.2).run scene.tree = copied
  obtain ⟨tree, cause | target⟩ := copied
  · exact .inr (Nat.lt_succ_self _)
  · exact .inl ⟨tree, target, rfl, rfl⟩

theorem mark_cases (entry : Path) (scene : Scene) :
    (∃ tree, (ReferenceCache.markValid entry).run scene.tree = (tree, .ok ()) ∧
      scene.mark entry = { scene with tree }) ∨
    scene.errors < (scene.mark entry).errors := by
  unfold Scene.mark
  generalize (ReferenceCache.markValid entry).run scene.tree = marked
  obtain ⟨tree, cause | ⟨⟩⟩ := marked
  · exact .inr (Nat.lt_succ_self _)
  · exact .inl ⟨tree, rfl, rfl⟩

/-- Files are all copied with success, or an error is reported. -/
theorem copies_cases (entry : Path) (plan : List (Text × Reference.SourceFile)) (scene : Scene) :
    (∃ tree, Copies entry plan scene.tree tree ∧
      plan.foldl (Scene.copy entry) scene = { scene with tree }) ∨
    scene.errors < (plan.foldl (Scene.copy entry) scene).errors := by
  induction plan generalizing scene with
  | nil => exact .inl ⟨scene.tree, rfl, rfl⟩
  | cons item rest ih =>
      rw [List.foldl_cons]
      rcases copy_cases entry scene item with ⟨tree, target, copied, same⟩ | failed
      · rw [same]
        rcases ih { scene with tree } with ⟨last, copies, kept⟩ | later
        · exact .inl ⟨last, ⟨tree, target, copied, copies⟩, kept⟩
        · exact .inr later
      · rcases ih (scene.copy entry item) with ⟨last, -, kept⟩ | later
        · rw [kept]
          exact .inr failed
        · exact .inr (failed.trans later)

theorem entry_of_prepare {cache : ReferenceCache} {addon : Text} {tree next : FileTree} {entry : Path}
    (prepared : (cache.prepare addon).run tree = (next, .ok entry)) : entry = cache.entry addon := by
  unfold ReferenceCache.prepare at prepared
  obtain ⟨_, _, -, prepared⟩ := FileOp.run_bind_eq_ok_iff.1 prepared
  obtain ⟨_, _, -, prepared⟩ := FileOp.run_bind_eq_ok_iff.1 prepared
  obtain ⟨_, _, -, prepared⟩ := FileOp.run_bind_eq_ok_iff.1 prepared
  rw [FileOp.run_pure] at prepared
  cases prepared
  rfl

/-- An addon that was saved without an error was saved with success. -/
theorem saves_of_save {cache : ReferenceCache} {addon : Text}
    (saved : before.save cache addon = (.completed, after)) (noError : after.errors = before.errors) :
    Saves cache addon before.extracted before.tree after.tree ∧
      after = { before with tree := after.tree } := by
  unfold Scene.save at saved
  generalize prepares : (cache.prepare addon).run before.tree = prepared at saved
  obtain ⟨tree, cause | entry⟩ := prepared
  · cases saved
  · obtain rfl := entry_of_prepare prepares
    obtain ⟨-, rfl⟩ := Prod.mk.inj saved
    rcases copies_cases (cache.entry addon) (AddonWork.savePlan before.extracted tree)
      { before with tree } with ⟨stored, copies, kept⟩ | failed
    · rw [kept] at noError ⊢
      rcases mark_cases (cache.entry addon) { before with tree := stored } with ⟨last, marked, same⟩ | failed
      · rw [same]
        exact ⟨⟨tree, stored, prepares, copies, marked⟩, rfl⟩
      · exact absurd noError (Nat.ne_of_gt failed)
    · rcases mark_cases (cache.entry addon) ((AddonWork.savePlan before.extracted tree).foldl
        (Scene.copy (cache.entry addon)) { before with tree }) with ⟨last, -, same⟩ | later
      · rw [same] at noError
        exact absurd noError (Nat.ne_of_gt failed)
      · exact absurd noError (Nat.ne_of_gt (failed.trans later))

/-! ## Completed stages -/

section Completed

variable {work : AddonWork} {begun ended : World} {configs : List Path} {tempRoot : Path}

theorem Completes.extracts
    (completes : Completes work.addon (work.extract tempRoot) begun (.ok .completed) ended) :
    work.Extracts tempRoot (begun.scene work.addon) (ended.scene work.addon) := by
  have attains : Attains work.addon (work.extract tempRoot) (begun.scene work.addon) fun answer after =>
      answer = .ok .completed → work.Extracts tempRoot (begun.scene work.addon) after :=
    AddonWork.attains_extract (fun _ _ => nofun) (fun _ => nofun) fun _ extracts _ => extracts
  exact completes.attained attains (AddonWork.stages_extract tempRoot).follow rfl

theorem Completes.convertsAll
    (completes : Completes work.addon work.convert begun (.ok (.completed, configs)) ended) :
    work.ConvertsAll (begun.scene work.addon) (ended.scene work.addon) ∧
      configs = Path.sort ended.converted := by
  have attains : Attains work.addon work.convert (begun.scene work.addon) fun answer after =>
      ∀ configs, answer = .ok (.completed, configs) →
        work.ConvertsAll (begun.scene work.addon) after ∧ configs = Path.sort after.converted :=
    AddonWork.attains_convert (fun _ _ => nofun) fun after converts configs same => by
      cases same
      exact ⟨converts, rfl⟩
  exact completes.attained attains AddonWork.stages_convert.follow configs rfl

theorem Completes.parsed {status : StageStatus}
    (completes : Completes work.addon (work.parse configs) begun status ended) :
    ended.scene work.addon =
      configs.foldl (Scene.read work.environment.reader) (begun.scene work.addon) := by
  have attains : Attains work.addon (work.parse configs) (begun.scene work.addon) fun _ after =>
      after = configs.foldl (Scene.read work.environment.reader) (begun.scene work.addon) :=
    AddonWork.attains_parse rfl
  exact completes.attained attains (AddonWork.stages_parse configs).follow

theorem Completes.saved {status : StageStatus}
    (completes : Completes work.addon work.save begun status ended) :
    (begun.scene work.addon).save work.cache work.addon.name = (status, ended.scene work.addon) := by
  have attains : Attains work.addon work.save (begun.scene work.addon) fun status after =>
      (begun.scene work.addon).save work.cache work.addon.name = (status, after) :=
    AddonWork.attains_save rfl
  exact completes.attained attains AddonWork.stages_save.follow

theorem Completes.readFromCache {answer : Bool}
    (completes : Completes work.addon work.readFromCache begun answer ended)
    (valid : work.cache.state work.addon.name begun.tree = .valid) :
    answer = true ∧ ended.scene work.addon =
      (ReferenceCache.configFiles (work.cache.entry work.addon.name) begun.tree).foldl
        (Scene.read work.environment.reader) (begun.scene work.addon) := by
  have attains : Attains work.addon work.readFromCache (begun.scene work.addon) fun answer after =>
      answer = true ∧ after =
        (ReferenceCache.configFiles (work.cache.entry work.addon.name) begun.tree).foldl
          (Scene.read work.environment.reader) (begun.scene work.addon) :=
    AddonWork.attains_readFromCache valid ⟨rfl, rfl⟩
  exact completes.attained attains AddonWork.speaksOf_readFromCache.follow

/-- An addon with a valid entry is read from it, and that is all. -/
theorem Completes.readOrIndex {answer : Except RunFailure StageStatus}
    (completes : Completes work.addon (work.readOrIndex tempRoot) begun answer ended)
    (valid : work.cache.state work.addon.name begun.tree = .valid) :
    answer = .ok .completed ∧ Completes work.addon work.readFromCache begun true ended := by
  obtain ⟨found, middle, reads, rest⟩ := completes.bind_cases (AddonWork.speaksOf_readOrIndex tempRoot).follow
  obtain ⟨rfl, -⟩ := reads.readFromCache valid
  obtain ⟨rfl, reads⟩ := reads.pure_right rest
  exact ⟨rfl, reads⟩

/-- An addon that is read from its entry is not indexed. -/
theorem Completes.readOrIndex_of_cached
    (completes : Completes addon work.readFromCache begun true ended) :
    Completes addon (work.readOrIndex tempRoot) begun (.ok .completed) ended := by
  obtain ⟨live, uncancelled, moves, execution⟩ := completes
  have answers : Executes Interference (pure (.ok .completed) : Run (Except RunFailure StageStatus))
      ended [] ended (some (.ok .completed)) := executes_pure_iff.2 ⟨rfl, rfl, .refl⟩
  exact ⟨live, uncancelled, _, execution.bind answers⟩

end Completed

/-! ## All stages -/

/-- Whether the archives of an addon are extracted, the binary configs converted, the text configs
read and the entry saved, one stage after the other. -/
structure Indexed (work : AddonWork) (tempRoot : Path) (configs : List Path)
    (begun extracted converted parsed saved : World) : Prop where
  extracts : Completes work.addon (work.extract tempRoot) begun (.ok .completed) extracted
  converts : Completes work.addon work.convert extracted (.ok (.completed, configs)) converted
  parses : Completes work.addon (work.parse configs) converted .completed parsed
  saves : Completes work.addon work.save parsed .completed saved

/-- Work that is completed consists of all stages. -/
theorem Completes.indexed {work : AddonWork} {tempRoot : Path} {begun saved : World}
    (completes : Completes work.addon (work.index tempRoot) begun (.ok .completed) saved) :
    ∃ configs extracted converted parsed,
      Indexed work tempRoot configs begun extracted converted parsed saved := by
  have noPure : ∀ {answer : Except RunFailure StageStatus} {world : World}, answer ≠ .ok .completed →
      ¬ Completes work.addon (pure answer : Run _) world (.ok .completed) saved := by
    intro answer world differs completes
    obtain ⟨_, execution⟩ := completes.executes
    exact differs (Option.some.inj (executes_pure_iff.1 execution).2.1).symm
  obtain ⟨result, extracted, extracts, rest⟩ := completes.bind_cases (AddonWork.speaksOf_index tempRoot).follow
  match result with
  | .error _ => exact absurd rest (noPure nofun)
  | .ok .stopped => exact absurd rest (noPure nofun)
  | .ok .completed =>
      obtain ⟨result, converted, converts, rest⟩ := rest.bind_cases AddonWork.speaksOf_convertAndSave.follow
      match result with
      | .error _ => exact absurd rest (noPure nofun)
      | .ok (.stopped, _) => exact absurd rest (noPure nofun)
      | .ok (.completed, configs) =>
          obtain ⟨result, parsed, parses, rest⟩ := rest.bind_cases (AddonWork.speaksOf_parseAndSave configs).follow
          match result with
          | .stopped => exact absurd rest (noPure nofun)
          | .completed =>
              obtain ⟨status, _, saves, rest⟩ := rest.bind_cases
                (AddonWork.stages_save.follow.bind fun _ => always_pure _)
              obtain ⟨same, saves⟩ := saves.pure_right rest
              cases same
              exact ⟨configs, extracted, converted, parsed, extracts, converts, parses, saves⟩

end AddonIndex.Indexing
