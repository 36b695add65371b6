import AddonIndex.Proofs.Indexing.Audit

/-!
# The accounts and the entries of the stages

Archives and binary configs are dealt out to workers; configs are read and files are saved one after another. Each
of these stages accounts for the units that it lists, whatever is cancelled, refused or aborted on the way.
-/

namespace AddonIndex.Indexing

open Activity

variable {γ : Type} {addon : Handle} {world after : World} {moves : List (Move World)} {stage : Stage}

/-- What a stage tells that lists units, but for what it tells of the units. -/
def stageReport (addon : Handle) (stage : Stage) (units : Nat) (own : List Event) : List Event :=
  .stageStarted addon stage :: (openingReport addon units ++ (own ++ [.stageFinished addon stage]))

/-- What a stage tells that lists no units. -/
def shortReport (addon : Handle) (stage : Stage) (own : List Event) : List Event :=
  .stageStarted addon stage :: (own ++ [.stageFinished addon stage])

/-- If all units of shares are finished, as many are done as there are. -/
theorem Accounted.complete {job : Job γ} {units waiting : List γ} {shares : List (Share γ)}
    {others word : List Event} {arrangements : List (FileTree × FileTree)}
    (account : Accounted job addon units shares waiting others arrangements word world moves after)
    (none : waiting = []) (unbroken : ∀ share ∈ shares, share.isBroken = false)
    (uncancelled : Uncancelled addon after) :
    (after.progressOf addon).current = (after.progressOf addon).total := by
  have finished : ∀ share ∈ shares, share.units = share.finished.map Finished.unit := by
    intro share member
    have ended : share.ending.left = [] := by
      cases ending : share.ending with
      | completed => rfl
      | stopped unit rest => exact absurd uncancelled (account.stopped share member unit rest ending)
      | broken unit rest =>
          have broken := unbroken share member
          rw [Share.isBroken, ending] at broken
          cases broken
    rw [Share.units, ended, List.append_nil]
  have whole := account.whole
  rw [none, List.append_nil, List.flatMap_congr finished, ← List.map_flatMap] at whole
  rw [account.current, account.total, ← whole.length_eq, List.length_map]

/-- A stage accounts for the units that it lists: what it tells before the work on them is nothing, and what it tells
after it is its own. -/
theorem Booked.long {job : Job γ} {units waiting : List γ} {shares : List (Share γ)}
    {first shared last : List (Posting γ)}
    (booked : Booked job addon (.told (.stageStarted addon stage) :: (first ++ (opening addon units.length ++
      (shared ++ (last ++ [.told (.stageFinished addon stage)]))))) world moves after)
    (whole : (shares.flatMap Share.units ++ waiting).Perm units) (sound : ∀ share ∈ shares, share.Sound job)
    (perm : shared.Perm (shares.flatMap (Share.entries job addon)))
    (areFirst : ∀ entry ∈ first, entry.isAside = true) (areLast : ∀ entry ∈ last, entry.isAside = true)
    (silent : first.filterMap Posting.told? = []) :
    ∃ word, Accounted job addon units shares waiting
      (stageReport addon stage units.length (last.filterMap Posting.told?))
      ((first ++ last).filterMap Posting.arranged?) word world moves after := by
  rw [← List.cons_append] at booked
  have account := booked.accounted whole sound perm
    (fun entry member => by
      rcases List.mem_cons.1 member with rfl | later
      · rfl
      · exact areFirst entry later)
    (fun entry member => by
      rcases List.mem_append.1 member with before | atEnd
      · exact areLast entry before
      · rw [List.mem_singleton.1 atEnd]
        rfl)
  rw [List.cons_append, List.filterMap_cons, silent, List.filterMap_cons] at account
  simpa [stageReport, Posting.told?, Posting.arranged?, List.filterMap_append, List.filterMap_cons] using account

theorem Booked.short {job : Job γ} {asides : List (Posting γ)}
    (booked : Booked job addon (.told (.stageStarted addon stage) :: (asides ++ [.told (.stageFinished addon stage)]))
      world moves after) (areAsides : ∀ entry ∈ asides, entry.isAside = true) :
    Unlisted addon (shortReport addon stage (asides.filterMap Posting.told?)) (asides.filterMap Posting.arranged?)
      world moves after := by
  have unlisted := booked.unlisted fun entry member => by
    rcases List.mem_cons.1 member with rfl | later
    · rfl
    rcases List.mem_append.1 later with before | atEnd
    · exact areAsides entry before
    · rw [List.mem_singleton.1 atEnd]
      rfl
  rw [List.filterMap_cons, List.filterMap_cons, List.filterMap_append, List.filterMap_append] at unlisted
  simpa [shortReport, Posting.told?, Posting.arranged?, List.filterMap_cons] using unlisted

/-! ## Workers -/

/-- The account of a stage that deals files out to workers. A file waits only if a worker is refused; a worker that
is aborted is told of once, unless one is refused. -/
structure PoolAccount (job : Job SizedFile) (addon : Handle) (stage : Stage) (files : List Path)
    (refusal : Option WorkerRefused) (units : List SizedFile) (crews : List Crew) (waiting : List SizedFile)
    (word : List Event) (world : World) (moves : List (Move World)) (after : World) : Prop where
  measured : units.map SizedFile.path = files
  dealt : Dealt job units refusal crews waiting
  account : Accounted job addon units (crews.map Crew.share) waiting
    (stageReport addon stage files.length (abortReports addon crews refusal)) [] word world moves after
  aborted : refusal = none → ∀ crew ∈ crews, crew.share.isBroken = true →
    word.count (abortReport addon crew.worker) = 1
  complete : refusal = none → (∀ crew ∈ crews, crew.share.isBroken = false) → Uncancelled addon after →
    (after.progressOf addon).current = (after.progressOf addon).total

theorem abortReport_injective (addon : Handle) : Function.Injective (abortReport addon) := by
  intro first second same
  unfold abortReport at same
  simpa using same

/-- The reports of aborted workers name each of them once. -/
theorem count_abortReports {crews : List Crew} (names : (crews.map Crew.worker).Nodup) {crew : Crew}
    (member : crew ∈ crews) (broken : crew.share.isBroken = true) :
    (abortReports addon crews none).count (abortReport addon crew.worker) = 1 := by
  have sub : ((crews.filter fun crew => crew.share.isBroken).map Crew.worker).Sublist (crews.map Crew.worker) :=
    List.filter_sublist.map Crew.worker
  have reports : abortReports addon crews none =
      ((crews.filter fun crew => crew.share.isBroken).map Crew.worker).map (abortReport addon) := by
    rw [List.map_map]
    rfl
  rw [reports]
  apply List.count_eq_one_of_mem
  · exact (names.sublist sub).map (abortReport_injective addon)
  · exact List.mem_map_of_mem (List.mem_map_of_mem (List.mem_filter.2 ⟨member, broken⟩))

/-- Whether what a job tells of units is never that a worker was aborted. -/
def TellsApart (job : Job γ) (addon : Handle) : Prop :=
  ∀ unit succeeded event worker, job.tells unit succeeded event → event ≠ abortReport addon worker

theorem tellsApart_toolJob (notes : Path → List Path) (action : Text) (call : Path → FileTree → ToolEffect) (output : Path → Path)
    (record : Tally → Bool → Tally) (record_comm) :
    TellsApart (toolJob addon notes action call output record record_comm) addon := by
  rintro unit succeeded event worker tells rfl
  cases succeeded with
  | true => cases tells
  | false =>
      rcases tells with ⟨detail, same⟩
      simp only [abortReport, Event.error.injEq] at same
      simp at same

/-- Looks at the world are entered aside, tell nothing and change no files. -/
theorem looked_asides (seen : List World) :
    (∀ entry ∈ seen.map (Posting.looked : World → Posting γ), entry.isAside = true) ∧
      (seen.map (Posting.looked : World → Posting γ)).filterMap Posting.told? = [] ∧
      (seen.map (Posting.looked : World → Posting γ)).filterMap Posting.arranged? = [] := by
  rw [List.filterMap_map, List.filterMap_map, List.filterMap_eq_nil_iff, List.filterMap_eq_nil_iff]
  exact ⟨List.forall_mem_map.2 fun _ _ => rfl, fun _ _ => rfl, fun _ _ => rfl⟩

theorem told_asides (events : List Event) :
    (∀ entry ∈ events.map (Posting.told : Event → Posting γ), entry.isAside = true) ∧
      (events.map (Posting.told : Event → Posting γ)).filterMap Posting.told? = events ∧
      (events.map (Posting.told : Event → Posting γ)).filterMap Posting.arranged? = [] := by
  rw [List.filterMap_map, List.filterMap_map]
  refine ⟨List.forall_mem_map.2 fun _ _ => rfl, ?_, List.filterMap_eq_nil_iff.2 fun _ _ => rfl⟩
  exact List.filterMap_some

/-- Entries of the shares of workers account for the files that are dealt out. -/
theorem Booked.pool {job : Job SizedFile} {files : List Path} {refusal : Option WorkerRefused}
    {units waiting : List SizedFile} {crews : List Crew} {seen : List World} {shared : List (Posting SizedFile)}
    (booked : Booked job addon (.told (.stageStarted addon stage) :: (seen.map Posting.looked ++
      (opening addon files.length ++ (shared ++ ((abortReports addon crews refusal).map Posting.told ++
        [.told (.stageFinished addon stage)]))))) world moves after)
    (apart : TellsApart job addon) (measured : units.map SizedFile.path = files)
    (dealt : Dealt job units refusal crews waiting)
    (perm : shared.Perm (crews.flatMap fun crew => crew.share.entries job addon)) :
    ∃ word, PoolAccount job addon stage files refusal units crews waiting word world moves after := by
  have length : files.length = units.length := by rw [← measured, List.length_map]
  have whole : ((crews.map Crew.share).flatMap Share.units ++ waiting).Perm units := by
    rw [List.flatMap_map]
    exact dealt.units
  have sound : ∀ share ∈ crews.map Crew.share, share.Sound job := List.forall_mem_map.2 dealt.sound
  have shares : shared.Perm ((crews.map Crew.share).flatMap (Share.entries job addon)) := by
    rw [List.flatMap_map]
    exact perm
  rcases looked_asides seen with ⟨areFirst, silent, unchanged⟩
  rcases told_asides (abortReports addon crews refusal) with ⟨areLast, reported, unarranged⟩
  rw [length] at booked
  rcases booked.long whole sound shares areFirst areLast silent with ⟨word, account⟩
  rw [reported, List.filterMap_append, unchanged, unarranged, ← length] at account
  refine ⟨word, measured, dealt, account, ?_, ?_⟩
  · rintro rfl crew member broken
    have untold : abortReport addon crew.worker ∉ (finishedIn (crews.map Crew.share)).map Finished.event := by
      intro inEvents
      rcases List.mem_map.1 inEvents with ⟨item, inFinished, same⟩
      rcases List.mem_flatMap.1 inFinished with ⟨share, inShares, inShare⟩
      exact apart _ _ _ _ (account.sound share inShares item inShare) same
    have uncounted : abortReport addon crew.worker ∉
        (List.range' 1 (finishedIn (crews.map Crew.share)).length).map (Event.currentProgress addon) := by
      intro inNumbers
      rcases List.mem_map.1 inNumbers with ⟨number, -, same⟩
      cases same
    have once := @count_abortReports addon _ dealt.names _ member broken
    rw [account.events.count_eq, List.count_append, List.count_append, List.count_eq_zero_of_not_mem untold,
      List.count_eq_zero_of_not_mem uncounted]
    simp [stageReport, openingReport, abortReport] at once ⊢
    exact once
  · intro none unbroken uncancelled
    apply account.complete (dealt.started none) _ uncancelled
    exact List.forall_mem_map.2 unbroken

/-! ## One unit after another -/

/-- The account of a stage that takes units one after another. None of them is broken off. -/
structure LineAccount (job : Job γ) (addon : Handle) (stage : Stage) (units : List γ) (share : Share γ)
    (own : List Event) (arrangements : List (FileTree × FileTree)) (word : List Event) (status : StageStatus)
    (world : World) (moves : List (Move World)) (after : World) : Prop where
  account : Accounted job addon units [share] [] (stageReport addon stage units.length own) arrangements word world
    moves after
  ended : share.ending.status? = some status
  complete : Uncancelled addon after → (after.progressOf addon).current = (after.progressOf addon).total

/-- Entries of one share account for the units that are taken one after another. -/
theorem Booked.line {job : Job γ} {share : Share γ} {status : StageStatus} {first last : List (Posting γ)}
    (booked : Booked job addon (.told (.stageStarted addon stage) :: (first ++ (opening addon share.units.length ++
      (share.entries job addon ++ (last ++ [.told (.stageFinished addon stage)]))))) world moves after)
    (sound : share.Sound job) (ended : share.ending.status? = some status)
    (areFirst : ∀ entry ∈ first, entry.isAside = true) (areLast : ∀ entry ∈ last, entry.isAside = true)
    (silent : first.filterMap Posting.told? = []) :
    ∃ word, LineAccount job addon stage share.units share (last.filterMap Posting.told?)
      ((first ++ last).filterMap Posting.arranged?) word status world moves after := by
  have whole : ([share].flatMap Share.units ++ []).Perm share.units := by simp
  have entries : (share.entries job addon).Perm ([share].flatMap (Share.entries job addon)) := by simp
  have shares : ∀ one ∈ [share], one.Sound job := List.forall_mem_singleton.2 sound
  rcases booked.long whole shares entries areFirst areLast silent with ⟨word, account⟩
  have unbroken : ∀ one ∈ [share], one.isBroken = false := by
    intro one member
    rw [List.mem_singleton.1 member, Share.isBroken, ended]
    rfl
  exact ⟨word, account, ended, account.complete rfl unbroken⟩

end AddonIndex.Indexing

/-!
## The entries of whole stages

A stage that lists units first looks for them; its entries begin and end with its reports, and those of the units
stand between an opening and what is told afterwards.
-/

namespace AddonIndex.Indexing

open Activity

variable {α γ : Type} {addon : Handle} {job : Job γ} {world after : World} {moves : List (Move World)}

/-- A stage makes the entries of its work between its reports. -/
theorem books_withStage {stage : Stage} {inner : Run α} {goal : Option α → List (Posting γ) → Prop}
    (books : Books job addon inner fun result entries =>
      match result with
      | some answer => goal (some answer)
          (.told (.stageStarted addon stage) :: (entries ++ [.told (.stageFinished addon stage)]))
      | none => goal none (.told (.stageStarted addon stage) :: entries)) :
    Books job addon (withStage addon stage inner) goal := by
  apply Marks.bind
  apply books_submit
  apply Marks.bind
  apply books.mono
  rintro (_ | answer) entries reached
  · exact reached
  apply Marks.bind
  apply books_submit
  apply marks_pure
  simpa using reached

theorem skips_noteTexts (texts : List Path) : Skips job addon (AddonWork.noteTexts texts) := by
  induction texts with
  | nil => exact skips_pure _
  | cons text rest ih => exact (skips_note _).bind fun _ => ih

/-- The configs that are found when each directory is looked at on its own. -/
def foundConfigs (looks : List (Path × World)) : ConfigFiles where
  binaries := looks.flatMap fun look => (configFiles look.1 look.2.tree).binaries
  texts := looks.flatMap fun look => (configFiles look.1 look.2.tree).texts

namespace AddonWork

variable {work : AddonWork}

theorem skips_status : Skips job work.addon work.status := by
  apply (skips_inspect _).bind
  intro cancelled
  split <;> exact skips_pure _

theorem skips_setReference (entry : Path) : Skips job work.addon (work.setReference entry) := by
  apply skips_updateProgress
  · exact fun _ => rfl
  · exact fun _ => rfl
  · exact fun _ => rfl

/-- The directories are looked at one after another, unless the addon is found cancelled. -/
theorem books_findConfigs {directories : List Path} {goal : Option (Option ConfigFiles) → List (Posting γ) → Prop}
    (stopped : ∀ seen : List World, goal (some none) (seen.map Posting.looked ++ [.stopped]))
    (found : ∀ looks : List (Path × World), looks.map Prod.fst = directories →
      goal (some (some (foundConfigs looks))) (looks.map fun look => .looked look.2)) :
    Books job work.addon (work.findConfigs directories) goal := by
  induction directories generalizing goal with
  | nil => exact marks_pure (found [] rfl)
  | cons directory rest ih =>
      apply Marks.bind
      apply books_isCancelled
      · exact marks_pure (stopped [])
      apply Marks.bind
      apply books_inspect
      intro seen
      apply Marks.bind
      apply ih
      · exact fun others => marks_pure (by simpa using stopped (seen :: others))
      · intro looks same
        apply marks_pure
        simpa [foundConfigs] using found ((directory, seen) :: looks) (congrArg _ same)

/-- The entries of a stage that deals files out to workers. -/
theorem books_extract {tempRoot : Path}
    {goal : Option (Except RunFailure StageStatus) → List (Posting SizedFile) → Prop}
    (unreadable : ∀ seen cause, archiveContainer? work.addon.directory seen.tree = .error cause →
      goal (some (.error (.addonDirectoryUnreadable work.addon.directory cause)))
        (.told (.stageStarted work.addon .extraction) :: ([.looked seen] ++
          [.told (.stageFinished work.addon .extraction)])))
    (noContainer : ∀ seen text, archiveContainer? work.addon.directory seen.tree = .ok none →
      goal (some (.ok .stopped)) (.told (.stageStarted work.addon .extraction) ::
        ([.looked seen, .told (.warning work.addon text none)] ++ [.told (.stageFinished work.addon .extraction)])))
    (unlisted : ∀ seen later container cause,
      archiveContainer? work.addon.directory seen.tree = .ok (some container) →
      archives container later.tree = .error cause →
      goal (some (.error (.addonDirectoryUnreadable container cause)))
        (.told (.stageStarted work.addon .extraction) :: ([.looked seen, .looked later] ++
          [.told (.stageFinished work.addon .extraction)])))
    (listed : ∀ seen later container files units refusal crews waiting shared answer,
      archiveContainer? work.addon.directory seen.tree = .ok (some container) →
      archives container later.tree = .ok files → units.map SizedFile.path = files →
      Dealt (work.extractionJob (tempRoot.join work.addon.name)) units refusal crews waiting →
      shared.Perm (crews.flatMap fun crew => crew.share.entries (work.extractionJob (tempRoot.join work.addon.name)) work.addon) →
      answer.map (fun _ => ()) = answerOf refusal →
      goal (some answer) (.told (.stageStarted work.addon .extraction) :: ([seen, later].map Posting.looked ++
        (opening work.addon files.length ++ (shared ++ ((abortReports work.addon crews refusal).map Posting.told ++
          [.told (.stageFinished work.addon .extraction)])))))) :
    Books (work.extractionJob (tempRoot.join work.addon.name)) work.addon (work.extract tempRoot) goal := by
  apply books_withStage
  apply Marks.bind
  apply books_inspect
  intro seen
  dsimp only
  generalize looked : archiveContainer? work.addon.directory seen.tree = found
  rcases found with cause | _ | container
  · exact marks_pure (unreadable seen cause looked)
  · apply Marks.bind
    apply books_warning
    exact marks_pure (noContainer seen _ looked)
  apply Marks.bind
  apply books_inspect
  intro later
  dsimp only
  generalize listing : archives container later.tree = found
  rcases found with cause | files
  · exact marks_pure (unlisted seen later container cause looked listing)
  apply (skips_note _).books_bind
  intro _
  apply Marks.bind
  apply books_beginWork
  apply Marks.bind
  apply (books_shareOut (extractEach_eq _) (treats_extractUnit _)).mono
  rintro _ _ ⟨units, refusal, crews, waiting, shared, measured, dealt, rfl, perm, rfl⟩
  have reached := fun answer => listed seen later container files units refusal crews waiting shared answer looked
    listing measured dealt perm
  cases refusal with
  | some refusal => exact marks_pure (by simpa [opening] using reached _ rfl)
  | none =>
      apply skips_status.books_bind
      exact fun status => marks_pure (by simpa [opening] using reached (.ok status) rfl)

theorem books_convert
    {goal : Option (Except RunFailure (StageStatus × List Path)) → List (Posting SizedFile) → Prop}
    (stopped : ∀ before (seen : List World), goal (some (.ok (.stopped, [])))
      (.told (.stageStarted work.addon .conversion) :: (((before :: seen).map Posting.looked ++ [.stopped]) ++
        [.told (.stageFinished work.addon .conversion)])))
    (listed : ∀ (before : World) looks units refusal crews waiting shared answer,
      looks.map Prod.fst = before.extracted → units.map SizedFile.path = (foundConfigs looks).binaries →
      Dealt work.conversionJob units refusal crews waiting →
      shared.Perm (crews.flatMap fun crew => crew.share.entries work.conversionJob work.addon) →
      answer.map (fun _ => ()) = answerOf refusal →
      goal (some answer) (.told (.stageStarted work.addon .conversion) ::
        ((before :: looks.map Prod.snd).map Posting.looked ++ (opening work.addon (foundConfigs looks).binaries.length ++
          (shared ++ ((abortReports work.addon crews refusal).map Posting.told ++
            [.told (.stageFinished work.addon .conversion)])))))) :
    Books work.conversionJob work.addon work.convert goal := by
  apply books_withStage
  apply Marks.bind
  apply books_inspect
  intro before
  apply Marks.bind
  apply books_findConfigs
  · exact fun seen => marks_pure (by simpa using stopped before seen)
  intro looks same
  apply (skips_noteTexts _).books_bind
  intro _
  apply Marks.bind
  apply books_beginWork
  apply Skips.books_bind
  · apply skips_modify <;> exact fun _ => rfl
  intro _
  apply Marks.bind
  apply (books_shareOut convertEach_eq treats_convertUnit).mono
  rintro _ _ ⟨units, refusal, crews, waiting, shared, measured, dealt, rfl, perm, rfl⟩
  have reached := fun answer => listed before looks units refusal crews waiting shared answer same measured dealt perm
  cases refusal with
  | some refusal => exact marks_pure (by simpa [opening, Function.comp_def] using reached _ rfl)
  | none =>
      apply (skips_inspect _).books_bind
      intro configs
      apply skips_status.books_bind
      exact fun status => marks_pure (by simpa [opening, Function.comp_def] using reached (.ok (status, Path.sort configs)) rfl)

/-- The entries of a stage that takes units one after another. -/
theorem books_parse {configs : List Path} {goal : Option StageStatus → List (Posting Path) → Prop}
    (aborted : ∀ entries, goal none entries)
    (listed : ∀ (share : Share Path) status, share.units = configs → share.Sound work.parsingJob →
      share.ending.status? = some status →
      goal (some status) (.told (.stageStarted work.addon .parsing) :: ([] ++ (opening work.addon configs.length ++
        (share.entries work.parsingJob work.addon ++ ([] ++ [.told (.stageFinished work.addon .parsing)])))))) :
    Books work.parsingJob work.addon (work.parse configs) goal := by
  apply books_withStage
  apply Marks.bind
  apply books_beginWork
  rw [parseEach_eq]
  apply (books_eachUnit treats_parseUnit configs).mono
  rintro _ _ ⟨share, units, sound, rfl, rfl⟩
  cases ended : share.ending.status? with
  | none => exact aborted _
  | some status => simpa [opening] using listed share status units sound ended

/-- The event that reports that there is no entry for an addon. -/
def prepareFailure (work : AddonWork) (cause : FileError) : Event :=
  .error (some work.addon) ("Failed to create reference directory ".toList ++
    (work.cache.entry work.addon.name).text) (some cause.message)

/-- The entry of the addon in the cache. -/
abbrev entry (work : AddonWork) : Path := work.cache.entry work.addon.name

/-- What is told of the mark that the entry is complete. -/
def markReport (work : AddonWork) (tree : FileTree) : List Event :=
  match ((ReferenceCache.markValid work.entry).run tree).2 with
  | .ok () => []
  | .error cause => [.error (some work.addon) ("Failed to mark reference directory ".toList ++ work.entry.text ++
      " as valid".toList) (some cause.message)]

/-- The entries that are made when the entry of the addon is marked as complete. -/
def markPostings (work : AddonWork) (tree : FileTree) : List (Posting γ) :=
  .arranged tree ((ReferenceCache.markValid work.entry).run tree).1 :: (work.markReport tree).map Posting.told

theorem books_save {goal : Option StageStatus → List (Posting (Text × Reference.SourceFile)) → Prop}
    (aborted : ∀ entries, goal none entries)
    (unprepared : ∀ tree cause, ((work.cache.prepare work.addon.name).run tree).2 = .error cause →
      goal (some .stopped) (.told (.stageStarted work.addon .saving) ::
        ([.arranged tree ((work.cache.prepare work.addon.name).run tree).1, .told (work.prepareFailure cause)] ++
          [.told (.stageFinished work.addon .saving)])))
    (listed : ∀ (tree : FileTree) (before seen : World) (share : Share (Text × Reference.SourceFile)) status
        (marking : Option FileTree), ((work.cache.prepare work.addon.name).run tree).2 = .ok work.entry →
      share.units = savePlan before.extracted seen.tree → share.Sound (work.savingJob work.entry) →
      share.ending.status? = some status → (status = .completed ↔ marking.isSome) →
      goal (some status) (.told (.stageStarted work.addon .saving) ::
        ([.arranged tree ((work.cache.prepare work.addon.name).run tree).1, .looked before, .looked seen] ++
          (opening work.addon (savePlan before.extracted seen.tree).length ++ (share.entries (work.savingJob work.entry) work.addon ++
            (marking.toList.flatMap work.markPostings ++ [.told (.stageFinished work.addon .saving)])))))) :
    Books (work.savingJob work.entry) work.addon work.save goal := by
  apply books_withStage
  apply Marks.bind
  apply books_perform
  intro tree
  dsimp only
  generalize prepares : ((work.cache.prepare work.addon.name).run tree).2 = prepared
  rcases prepared with cause | entry
  · apply Marks.bind
    apply books_error
    exact marks_pure (unprepared tree cause prepares)
  cases entry_of_prepare (show _ = (_, Except.ok entry) from Prod.ext rfl prepares)
  apply (skips_setReference _).books_bind
  intro _
  apply Marks.bind
  apply books_inspect
  intro before
  apply Marks.bind
  apply books_inspect
  intro seen
  apply Marks.bind
  apply books_beginWork
  rw [saveEach_eq]
  apply Marks.bind
  apply (books_eachUnit (treats_saveUnit work.entry) _).mono
  rintro _ _ ⟨share, units, sound, rfl, rfl⟩
  have reached := fun status marking => listed tree before seen share status marking prepares units sound
  cases ended : share.ending.status? with
  | none => exact aborted _
  | some status =>
      cases status with
      | stopped =>
          apply marks_pure
          simpa [opening] using reached .stopped none ended (by simp)
      | completed =>
          apply Marks.bind
          apply books_perform
          intro last
          have marks := reached .completed (some last) ended (by simp)
          dsimp only
          cases marked : ((ReferenceCache.markValid work.entry).run last).2 with
          | ok _ =>
              apply marks_pure
              simpa [opening, marked, markReport, markPostings] using marks
          | error cause =>
              apply Marks.bind
              apply books_error
              apply marks_pure
              simpa [opening, marked, markReport, markPostings] using marks

end AddonWork

end AddonIndex.Indexing
