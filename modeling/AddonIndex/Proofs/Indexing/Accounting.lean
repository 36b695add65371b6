import AddonIndex.Proofs.Indexing.StageLedger
import AddonIndex.Proofs.Indexing.Publication

/-!
# The accounts of a run

In the work on the addons of a run every stage that extracts, converts, parses or saves accounts for the units that
it lists, each of them once. This holds however the workers take turns, whatever the tools and the reader do, and
whenever addons are cancelled.
-/

namespace AddonIndex.Indexing

open Activity

variable {work : AddonWork} {tempRoot : Path} {world after : World} {moves : List (Move World)}

/-! ## The accounts of the stages of one addon -/

namespace AddonWork

/-- The account of the extraction: the archives that are listed are dealt out, unless a directory cannot be listed or
there is none. -/
inductive ExtractionAccount (work : AddonWork) (tempRoot : Path) (world : World) (moves : List (Move World))
    (after : World) : Except RunFailure StageStatus → Prop
  | unreadable {cause : FileError}
      (fails : ∃ move ∈ moves, archiveContainer? work.addon.directory move.1.tree = .error cause)
      (unlisted : Unlisted work.addon (shortReport work.addon .extraction []) [] world moves after) :
      ExtractionAccount work tempRoot world moves after
        (.error (.addonDirectoryUnreadable work.addon.directory cause))
  | containerUnreadable {container : Path} {cause : FileError}
      (fails : ∃ move ∈ moves, archives container move.1.tree = .error cause)
      (unlisted : Unlisted work.addon (shortReport work.addon .extraction []) [] world moves after) :
      ExtractionAccount work tempRoot world moves after (.error (.addonDirectoryUnreadable container cause))
  | nothing {text : Text} (missing : ∃ move ∈ moves, archiveContainer? work.addon.directory move.1.tree = .ok none)
      (unlisted : Unlisted work.addon (shortReport work.addon .extraction [.warning work.addon text none]) [] world
        moves after) : ExtractionAccount work tempRoot world moves after (.ok .stopped)
  | listed {container : Path} {files : List Path} {refusal : Option WorkerRefused} {units waiting : List SizedFile}
      {crews : List Crew} {word : List Event} {answer : Except RunFailure StageStatus}
      (contains : ∃ move ∈ moves, archiveContainer? work.addon.directory move.1.tree = .ok (some container))
      (lists : ∃ move ∈ moves, archives container move.1.tree = .ok files)
      (account : PoolAccount (work.extractionJob (tempRoot.join work.addon.name)) work.addon .extraction files refusal
        units crews waiting word world moves after)
      (answered : answer.map (fun _ => ()) = answerOf refusal) :
      ExtractionAccount work tempRoot world moves after answer

/-- The account of the conversion: the binary configs that are found in the extraction directories are dealt out,
unless the addon is found cancelled before that. -/
inductive ConversionAccount (work : AddonWork) (world : World) (moves : List (Move World)) (after : World) :
    Except RunFailure (StageStatus × List Path) → Prop
  | cancelled (cancelled : ¬ Uncancelled work.addon after)
      (unlisted : Unlisted work.addon (shortReport work.addon .conversion []) [] world moves after) :
      ConversionAccount work world moves after (.ok (.stopped, []))
  | listed {before : World} {looks : List (Path × World)} {refusal : Option WorkerRefused}
      {units waiting : List SizedFile} {crews : List Crew} {word : List Event}
      {answer : Except RunFailure (StageStatus × List Path)}
      (seen : ∀ world ∈ before :: looks.map Prod.snd, ∃ move ∈ moves, move.1 = world)
      (directories : looks.map Prod.fst = before.extracted)
      (account : PoolAccount work.conversionJob work.addon .conversion (foundConfigs looks).binaries refusal units
        crews waiting word world moves after)
      (answered : answer.map (fun _ => ()) = answerOf refusal) : ConversionAccount work world moves after answer

/-- The account of the parsing: the configs are read one after another until the addon is found cancelled. -/
def ParsingAccount (work : AddonWork) (configs : List Path) (world : World) (moves : List (Move World))
    (after : World) (answer : StageStatus) : Prop :=
  ∃ share word, LineAccount work.parsingJob work.addon .parsing configs share [] [] word answer world moves after

/-- The account of the saving: the files of the extraction directories are copied one after another, unless there is
no entry to copy them to. -/
inductive SavingAccount (work : AddonWork) (world : World) (moves : List (Move World)) (after : World) :
    StageStatus → Prop
  | unprepared {tree : FileTree} {cause : FileError}
      (fails : ((work.cache.prepare work.addon.name).run tree).2 = .error cause)
      (unlisted : Unlisted work.addon (shortReport work.addon .saving [work.prepareFailure cause])
        [(tree, ((work.cache.prepare work.addon.name).run tree).1)] world moves after) :
      SavingAccount work world moves after .stopped
  | listed {before seen : World} {tree : FileTree} {share : Share (Text × Reference.SourceFile)} {status : StageStatus}
      {marking : Option FileTree} {word : List Event}
      (looks : ∀ world ∈ [before, seen], ∃ move ∈ moves, move.1 = world)
      (prepared : ((work.cache.prepare work.addon.name).run tree).2 = .ok work.entry)
      (marks : status = .completed ↔ marking.isSome)
      (account : LineAccount (work.savingJob work.entry) work.addon .saving (savePlan before.extracted seen.tree) share
        (marking.toList.flatMap work.markReport)
        ((tree, ((work.cache.prepare work.addon.name).run tree).1) ::
          marking.toList.map fun tree => (tree, ((ReferenceCache.markValid work.entry).run tree).1))
        word status world moves after) : SavingAccount work world moves after status

theorem marking_asides {γ : Type} (marking : Option FileTree) :
    (∀ entry ∈ marking.toList.flatMap (work.markPostings : FileTree → List (Posting γ)), entry.isAside = true) ∧
      (marking.toList.flatMap (work.markPostings : FileTree → List (Posting γ))).filterMap Posting.told? =
        marking.toList.flatMap work.markReport ∧
      (marking.toList.flatMap (work.markPostings : FileTree → List (Posting γ))).filterMap Posting.arranged? =
        marking.toList.map fun tree => (tree, ((ReferenceCache.markValid work.entry).run tree).1) := by
  cases marking with
  | none => exact ⟨List.forall_mem_nil _, rfl, rfl⟩
  | some tree =>
      rcases @told_asides γ (work.markReport tree) with ⟨areTold, reported, unarranged⟩
      simp only [Option.toList_some, List.flatMap_singleton, List.map_cons, List.map_nil, markPostings]
      rw [List.filterMap_cons, List.filterMap_cons]
      refine ⟨List.forall_mem_cons.2 ⟨rfl, areTold⟩, reported, congrArg _ unarranged⟩

theorem extractionAccount {result : Option (Except RunFailure StageStatus)} (ready : Ready work.addon world)
    (execution : Executes Interference (work.extract tempRoot) world moves after result) :
    ∃ answer, result = some answer ∧ work.ExtractionAccount tempRoot world moves after answer := by
  have books : Books (work.extractionJob (tempRoot.join work.addon.name)) work.addon (work.extract tempRoot)
      fun result entries => Booked (work.extractionJob (tempRoot.join work.addon.name)) work.addon entries world moves
        after → ∃ answer, result = some answer ∧ work.ExtractionAccount tempRoot world moves after answer := by
    apply books_extract
    · intro seen cause fails booked
      rcases booked.looked seen (by simp) with ⟨move, member, rfl⟩
      exact ⟨_, rfl, .unreadable ⟨move, member, fails⟩ (booked.short (by simp [Posting.isAside]))⟩
    · intro seen text missing booked
      rcases booked.looked seen (by simp) with ⟨move, member, rfl⟩
      exact ⟨_, rfl, .nothing ⟨move, member, missing⟩ (booked.short (by simp [Posting.isAside]))⟩
    · intro seen later container cause _ fails booked
      rcases booked.looked later (by simp) with ⟨move, member, rfl⟩
      exact ⟨_, rfl, .containerUnreadable ⟨move, member, fails⟩ (booked.short (by simp [Posting.isAside]))⟩
    · intro seen later container files units refusal crews waiting shared answer contains lists measured dealt perm
        answered booked
      rcases booked.looked seen (by simp) with ⟨first, isFirst, rfl⟩
      rcases booked.looked later (by simp) with ⟨second, isSecond, rfl⟩
      rcases booked.pool (tellsApart_toolJob _ _ _ _ _ _) measured dealt perm with ⟨word, account⟩
      exact ⟨answer, rfl, .listed ⟨first, isFirst, contains⟩ ⟨second, isSecond, lists⟩ account answered⟩
  rcases books.reached (stages_extract tempRoot).follow ready execution with ⟨entries, booked, reached⟩
  exact reached booked

theorem conversionAccount {result : Option (Except RunFailure (StageStatus × List Path))}
    (ready : Ready work.addon world) (execution : Executes Interference work.convert world moves after result) :
    ∃ answer, result = some answer ∧ work.ConversionAccount world moves after answer := by
  have books : Books work.conversionJob work.addon work.convert fun result entries =>
      Booked work.conversionJob work.addon entries world moves after →
        ∃ answer, result = some answer ∧ work.ConversionAccount world moves after answer := by
    apply books_convert
    · intro before seen booked
      have cancelled : ¬ Uncancelled work.addon after := booked.cancelled (by simp)
      rcases @looked_asides SizedFile (before :: seen) with ⟨areLooks, silent, unchanged⟩
      have unlisted := booked.short (List.forall_mem_append.2 ⟨areLooks, List.forall_mem_singleton.2 rfl⟩)
      rw [List.filterMap_append, List.filterMap_append, silent, unchanged] at unlisted
      exact ⟨_, rfl, .cancelled cancelled unlisted⟩
    · intro before looks units refusal crews waiting shared answer directories measured dealt perm answered booked
      rcases booked.pool (tellsApart_toolJob _ _ _ _ _ _) measured dealt perm with ⟨word, account⟩
      have seen : ∀ world ∈ before :: looks.map Prod.snd, ∃ move ∈ moves, move.1 = world := by
        intro world member
        apply booked.looked
        apply List.mem_cons_of_mem
        apply List.mem_append_left
        exact List.mem_map_of_mem member
      exact ⟨answer, rfl, .listed seen directories account answered⟩
  rcases books.reached stages_convert.follow ready execution with ⟨entries, booked, reached⟩
  exact reached booked

theorem parsingAccount {configs : List Path} {result : Option StageStatus} (ready : Ready work.addon world)
    (execution : Executes Interference (work.parse configs) world moves after result) :
    ∃ answer, result = some answer ∧ work.ParsingAccount configs world moves after answer := by
  have books : Books work.parsingJob work.addon (work.parse configs) fun result entries =>
      Booked work.parsingJob work.addon entries world moves after →
        ∀ answer, result = some answer → work.ParsingAccount configs world moves after answer := by
    apply books_parse
    · exact fun _ _ _ => nofun
    · rintro share status rfl sound ended booked _ ⟨⟩
      rcases booked.line sound ended (List.forall_mem_nil _) (List.forall_mem_nil _) rfl with ⟨word, account⟩
      exact ⟨share, word, account⟩
  rcases (stages_parse configs).returns.of_traces execution.1 with ⟨answer, rfl⟩
  rcases books.reached (stages_parse configs).follow ready execution with ⟨entries, booked, reached⟩
  exact ⟨answer, rfl, reached booked answer rfl⟩

theorem savingAccount {result : Option StageStatus} (ready : Ready work.addon world)
    (execution : Executes Interference work.save world moves after result) :
    ∃ answer, result = some answer ∧ work.SavingAccount world moves after answer := by
  have books : Books (work.savingJob work.entry) work.addon work.save fun result entries =>
      Booked (work.savingJob work.entry) work.addon entries world moves after →
        ∀ answer, result = some answer → work.SavingAccount world moves after answer := by
    apply books_save
    · exact fun _ _ _ => nofun
    · rintro tree cause fails booked _ ⟨⟩
      exact .unprepared fails (booked.short (by simp [Posting.isAside]))
    · rintro tree before seen share status marking prepared units sound ended marks booked _ ⟨⟩
      rw [← units] at booked
      rcases @marking_asides work (Text × Reference.SourceFile) marking with ⟨areLast, reported, arranged⟩
      rcases booked.line sound ended (by simp [Posting.isAside]) areLast rfl with ⟨word, account⟩
      rw [units, reported, List.filterMap_append, arranged] at account
      have looks : ∀ world ∈ [before, seen], ∃ move ∈ moves, move.1 = world := by
        intro world member
        apply booked.looked
        apply List.mem_cons_of_mem
        apply List.mem_append_left
        apply List.mem_cons_of_mem
        exact List.mem_map_of_mem member
      exact .listed looks prepared marks account
  rcases stages_save.returns.of_traces execution.1 with ⟨answer, rfl⟩
  rcases books.reached stages_save.follow ready execution with ⟨entries, booked, reached⟩
  exact ⟨answer, rfl, reached booked answer rfl⟩

/-- Whether each stage that a part of a run consists of accounts for the units that it lists. -/
structure StagesAccounted (work : AddonWork) (tempRoot : Path) (world : World) (moves : List (Move World))
    (after : World) : Prop where
  extraction : ∀ result, Executes Interference (work.extract tempRoot) world moves after result →
    ∃ answer, result = some answer ∧ work.ExtractionAccount tempRoot world moves after answer
  conversion : ∀ result, Executes Interference work.convert world moves after result →
    ∃ answer, result = some answer ∧ work.ConversionAccount world moves after answer
  parsing : ∀ configs result, Executes Interference (work.parse configs) world moves after result →
    ∃ answer, result = some answer ∧ work.ParsingAccount configs world moves after answer
  saving : ∀ result, Executes Interference work.save world moves after result →
    ∃ answer, result = some answer ∧ work.SavingAccount world moves after answer

theorem stagesAccounted (ready : Ready work.addon world) : work.StagesAccounted tempRoot world moves after where
  extraction _ := extractionAccount ready
  conversion _ := conversionAccount ready
  parsing _ _ := parsingAccount ready
  saving _ := savingAccount ready

end AddonWork

/-! ## The accounts of all addons -/

variable {addon : Handle} {addons : List Handle} {environment : Environment} {cache : ReferenceCache}

theorem length_cancelNamed (world : World) (names : List Text) :
    (world.cancelNamed names).progress.length = world.progress.length := by
  apply @holds_cancelNamed world (fun after => after.progress.length = world.progress.length) names rfl
  intro after addon same
  unfold World.updateProgress
  rw [List.length_modify]
  exact same

/-- The ledger of an addon is kept during the work on addons. -/
theorem WorkStep.ready {reads : Handle → Prop} (step : WorkStep reads world after) (ready : Ready addon world) :
    Ready addon after := by
  refine ⟨step.live ready.live, lt_of_lt_of_eq ready.enrolled (Eq.symm ?_)⟩
  cases step with
  | call tree names => exact length_cancelNamed _ names
  | progress => exact List.length_modify ..
  | read => exact List.length_modify ..
  | _ => rfl

/-- In the work on the addons of a run every stage accounts for the units that it lists. -/
theorem stagesAccounted_of_indexEach {result : Option (Except RunFailure Unit)} (live : world.channel.Live)
    (enrolled : ∀ addon ∈ addons, addon.index < world.progress.length)
    (execution : Executes Interference (indexEach environment cache tempRoot addons) world moves after result) :
    ∀ addon ∈ addons, ∀ before during later begun ended, moves = before ++ (during ++ later) →
      Chain Interference world before begun →
      AddonWork.StagesAccounted { environment, cache, addon } tempRoot begun during ended := by
  rintro addon member before during later begun ended rfl chain
  have works : Works (fun _ => True) (indexEach environment cache tempRoot addons) := works_indexEach fun _ _ => trivial
  apply AddonWork.stagesAccounted
  have keeps : (fun first second => Ready addon first → Ready addon second) world begun := by
    apply chain.relates
    · exact fun _ ready => ready
    · exact fun _ _ _ first second ready => second (first ready)
    · exact fun _ _ interferes ready => (ready_of_interference (.single interferes) ready).1
    · intro move inBefore
      exact (works.of_traces execution.1 move (List.mem_append_left _ inBefore)).ready
  exact keeps ⟨live, enrolled addon member⟩

/-- Tools of which the extractor aborts the worker that calls it for the archive of the first addon. -/
def abortingTools : ArchiveTools where
  check tree := { tree, reply := .outcome .success }
  extract archive _ _ tree :=
    { tree, reply := if archive = "mods/@A/addons/main.pbo" then .abort else .outcome .success }
  convert _ _ _ tree := { tree, reply := .outcome .success }

/-- Two addons, when the work on them begins. -/
def enrolledAddons : World :=
  { twoAddons with handles := [⟨0, "mods/@A"⟩, ⟨1, "more/@B"⟩], progress := [{}, {}] }

/-- The work on these addons. -/
def abortedRun : Run (Except RunFailure Unit) :=
  indexEach { tools := abortingTools } ⟨"ref"⟩ "ref/temp" enrolledAddons.handles

/-- One archive is counted; the worker that was aborted in the other one is named once. -/
theorem stagesAccounted_of_abortedRun :
    ((abortedRun.run enrolledAddons).1.tally.archivesExtracted = 1 ∧
      (abortedRun.run enrolledAddons).1.channel.reported.filter Event.isError =
        [abortReport ⟨0, "mods/@A"⟩ "addon-indexer worker 1"]) ∧
    ∃ moves, Executes Interference abortedRun enrolledAddons moves (abortedRun.run enrolledAddons).1
        (abortedRun.run enrolledAddons).2 ∧
      ∀ addon ∈ enrolledAddons.handles, ∀ before during later begun ended, moves = before ++ (during ++ later) →
        Chain Interference enrolledAddons before begun →
        AddonWork.StagesAccounted { environment := { tools := abortingTools }, cache := ⟨"ref"⟩, addon } "ref/temp"
          begun during ended := by
  have execution : ∃ moves, Executes Interference abortedRun enrolledAddons moves (abortedRun.run enrolledAddons).1
      (abortedRun.run enrolledAddons).2 := executes_run abortedRun enrolledAddons
  rcases execution with ⟨moves, execution⟩
  have enrolled : ∀ addon ∈ enrolledAddons.handles, addon.index < enrolledAddons.progress.length := by decide +kernel
  constructor
  · constructor <;> decide +kernel
  · exact ⟨moves, execution, stagesAccounted_of_indexEach EventChannel.live_new enrolled execution⟩

end AddonIndex.Indexing
