import AddonIndex.Proofs.FileTree.RemovalOrder
import AddonIndex.Proofs.Indexing.Cleanup
import AddonIndex.Proofs.Indexing.Tallies
import AddonIndex.Proofs.Indexing.ToolOrder

/-!
# Stages come to the same with any workers

How many workers there are, and which turns they take, decides in which order archives are extracted and binary configs
are converted. Since neither order matters, a stage comes to the same whatever the workers do: it gives the same answer,
and leaves the same files and the same counters.
-/

namespace AddonIndex.Indexing

open Activity FileTree Reference ReferenceCache

variable {α : Type} {addon : Handle} {work : AddonWork} {tempRoot : Path} {temp : Text}
  {first second after afterAgain : Scene} {begun ended : World}

/-- Whether tools abort no worker, go by nothing but their input, and write nowhere but where they are to write. -/
structure Disciplined (tools : ArchiveTools) : Prop where
  extractsBelow : ExtractsBelow tools
  convertsInPlace : ConvertsInPlace tools
  goByInput : GoByInput tools
  extractReturns : ∀ archive directory limit, NeverAborts (tools.extract archive directory limit)
  convertReturns : ∀ binary text limit, NeverAborts (tools.convert binary text limit)

/-! ## Extraction -/

namespace AddonWork

/-- Whether extraction, of which no worker is refused or aborted, makes a scene of another one, with an answer. -/
def ExtractsTo (work : AddonWork) (tempRoot : Path) (before : Scene) (answer : Except RunFailure StageStatus)
    (after : Scene) : Prop :=
  match work.listArchives before.tree with
  | .error failure => answer = .error failure ∧ after = before
  | .ok none => answer = .ok .stopped ∧ after = before
  | .ok (some files) => answer = .ok .completed ∧ ∃ answers deeds,
      CallsAll (work.extractionDuty (tempRoot.join work.addon.name)) extractionHabit files before answers deeds after

/-- Workers extract archives one after another, in some order. -/
theorem extractsTo_of_completes
    (never : ∀ archive directory limit, NeverAborts (work.environment.tools.extract archive directory limit))
    {answer : Except RunFailure StageStatus}
    (completes : Completes work.addon (work.extract tempRoot) begun answer ended)
    (unrefused : ∀ refusal, answer ≠ .error (.workerRefused refusal)) :
    work.ExtractsTo tempRoot (begun.scene work.addon) answer (ended.scene work.addon) := by
  have attains : Attains work.addon (work.extract tempRoot) (begun.scene work.addon) fun answer after =>
      (∀ refusal, answer ≠ .error (.workerRefused refusal)) →
        work.ExtractsTo tempRoot (begun.scene work.addon) answer after := by
    apply @attains_extractBy _ work tempRoot extractionHabit.Completes
    · intro bucket
      exact (performs_extractEach _ bucket).returns (returns_extractEach never _ bucket)
    · intro cause fails _
      rw [ExtractsTo, listArchives, fails]
      exact ⟨rfl, rfl⟩
    · intro missing _
      rw [ExtractsTo, listArchives, missing]
      exact ⟨rfl, rfl⟩
    · intro container cause isContainer fails _
      rw [ExtractsTo, listArchives, isContainer]
      simp only [fails]
      exact ⟨trivial, trivial⟩
    · exact fun refusal after accepted => absurd rfl (accepted refusal)
    · intro container files after isContainer areArchives shared _
      rw [ExtractsTo, listArchives, isContainer]
      simp only [areArchives]
      exact ⟨trivial, shared.exists_callsAll diligent_extractionHabit⟩
  exact completes.attained attains (stages_extract tempRoot).follow unrefused

theorem exists_container {tree : FileTree} {files : List Path} (listed : work.listArchives tree = .ok (some files)) :
    ∃ container, archiveContainer? work.addon.directory tree = .ok (some container) ∧
      archives container tree = .ok files := by
  unfold listArchives at listed
  split at listed
  · cases listed
  · cases listed
  · rename_i container isContainer
    split at listed
    · cases listed
    · cases listed
      exact ⟨container, isContainer, by assumption⟩

/-- Whether no two binary configs are in one directory once all archives of an addon are extracted. -/
def ExtractsSingleBinaries (work : AddonWork) (temp : Text) (tree : FileTree) : Prop :=
  ∀ files, work.listArchives tree = .ok (some files) →
    SingleBinaries (work.extractedAt temp) (files.map (extractionDirectory (work.extractedAt temp)))
      (doEach (work.extractionDuty (work.extractedAt temp)).action files tree).1

/-- Whether extraction directories are laid out in a scene, each once, since a given tree. -/
structure Arranged (work : AddonWork) (temp : Text) (base : FileTree) (scene : Scene) : Prop where
  laidOut : LaidOut work temp scene.extracted scene.tree
  nodup : scene.extracted.Nodup
  named : scene.tree.Named
  workingDirectory : scene.tree.workingDirectory = base.workingDirectory

theorem Arranged.congr {base : FileTree} {scene other : Scene} (arranged : work.Arranged temp base scene)
    (tree : other.tree = scene.tree) (extracted : other.extracted = scene.extracted) :
    work.Arranged temp base other := by
  rcases arranged with ⟨laidOut, nodup, named, workingDirectory⟩
  rw [← tree, ← extracted] at laidOut
  rw [← tree] at named workingDirectory
  exact ⟨laidOut, extracted ▸ nodup, named, workingDirectory⟩

/-- What extraction needs of the files that it begins with. -/
structure Unpacks (work : AddonWork) (temp : Text) (scene : Scene) : Prop where
  extractable : Extractable work temp scene.tree
  named : scene.tree.Named
  single : work.ExtractsSingleBinaries temp scene.tree
  nothing : scene.extracted = []

section Extraction

variable {files : List Path} {answers : List (Path × Bool)} {deeds : List Deed}
  (disciplined : Disciplined work.environment.tools) (unpacks : work.Unpacks temp first)

include unpacks in
theorem Unpacks.unpackable (listed : work.listArchives first.tree = .ok (some files)) :
    Unpackable first.tree files first.tree := by
  rcases exists_container listed with ⟨container, isContainer, areArchives⟩
  exact
    { listed := listed_of_archives unpacks.extractable.formed areArchives
        (unpacks.extractable.stems container files isContainer areArchives)
      formed := unpacks.extractable.formed
      named := unpacks.named
      workingDirectory := rfl
      kept := fun _ _ there => there }

include unpacks in
/-- Where nothing is extracted yet there is nothing to arrange. -/
theorem Unpacks.begins_arranged : work.Arranged temp first.tree first ∧
    SingleBinaries (work.extractedAt temp) first.extracted first.tree := by
  rcases unpacks with ⟨extractable, named, -, nothing⟩
  have none : ∀ directory, directory ∉ first.extracted := by
    rw [nothing]
    exact fun _ => List.not_mem_nil
  have sideBySide : SideBySide (work.extractedAt temp) first.extracted first.tree :=
    ⟨fun directory member => absurd member (none directory), fun directory member => absurd member (none directory)⟩
  refine ⟨⟨⟨extractable.formed, extractable.separate, sideBySide⟩, ?_, named, rfl⟩, ?_⟩
  · rw [nothing]
    exact List.nodup_nil
  · rintro _ _ ⟨⟨_, _, -, -, member, -⟩, -⟩
    exact absurd member (none _)

include disciplined unpacks

/-- Archives that are all extracted are arranged for the stages that follow. -/
theorem Unpacks.arranged_of_callsAll (listed : work.listArchives first.tree = .ok (some files))
    (calls : CallsAll (work.extractionDuty (work.extractedAt temp)) extractionHabit files first answers deeds after) :
    work.Arranged temp first.tree after ∧ SingleBinaries (work.extractedAt temp) after.extracted after.tree := by
  have unpackable := unpacks.unpackable listed
  have areStems := unpackable.listed.stems
  have independent := independent_extractions disciplined.extractsBelow disciplined.goByInput
    unpacks.extractable.formed unpacks.extractable.fresh
  have directories := calls.extracted
  rw [unpacks.nothing, List.nil_append] at directories
  have within := within_of_extractions unpacks.extractable.separate disciplined.extractsBelow
    (fun archive succeeded called => areStems archive (calls.mem_of_called called)) calls.along unpacks.extractable.within
  have same := (independent.doEach_perm calls.dealt.symm unpackable (.refl unpackable.formed.distinct)).1
  rw [calls.doEach_eq plain_extractionDuty] at same
  refine ⟨⟨?_, ?_, ?_, within.workingDirectory⟩, ?_⟩
  · exact laidOut_of_within unpacks.extractable.separate within (named_extractionDirectories areStems directories)
  · exact directories.nodup_iff.2 (nodup_extractionDirectories unpackable.listed.differ areStems)
  · exact same.named (independent.ready_doEach unpackable).named
  · exact (unpacks.single files listed).relist same directories.symm

/-- What archives are extracted to does not depend on the order. -/
theorem Unpacks.reordered {answersAgain : List (Path × Bool)} {deedsAgain : List Deed}
    (listed : work.listArchives first.tree = .ok (some files)) (reordered : first.Reordered second)
    (calls : CallsAll (work.extractionDuty (work.extractedAt temp)) extractionHabit files first answers deeds after)
    (callsAgain : CallsAll (work.extractionDuty (work.extractedAt temp)) extractionHabit files second answersAgain
      deedsAgain afterAgain) : after.Reordered afterAgain := by
  have independent := independent_extractions disciplined.extractsBelow disciplined.goByInput
    unpacks.extractable.formed unpacks.extractable.fresh
  have ready := independent.perm (unpacks.unpackable listed) calls.dealt.symm
  rcases independent.doEach_perm (calls.dealt.trans callsAgain.dealt.symm) ready reordered.tree with ⟨trees, replies⟩
  rw [calls.doEach_eq plain_extractionDuty, callsAgain.doEach_eq plain_extractionDuty] at trees replies
  constructor
  · exact trees
  · exact calls.extracted.trans ((reordered.extracted.append_right _).trans callsAgain.extracted.symm)
  · rw [(scene_of_extractions calls.along).1, (scene_of_extractions callsAgain.along).1, reordered.configs]
  · rw [calls.errors plain_extractionDuty diligent_extractionHabit,
      callsAgain.errors plain_extractionDuty diligent_extractionHabit, reordered.errors, replies.countP_eq]

/-- Whatever extraction comes to, it leaves the archives arranged. -/
theorem Unpacks.arranged {answer : Except RunFailure StageStatus}
    (extracts : work.ExtractsTo (work.cache.root.join temp) first answer after) :
    work.Arranged temp first.tree after ∧ SingleBinaries (work.extractedAt temp) after.extracted after.tree := by
  unfold ExtractsTo at extracts
  split at extracts
  · rcases extracts with ⟨-, rfl⟩
    exact unpacks.begins_arranged
  · rcases extracts with ⟨-, rfl⟩
    exact unpacks.begins_arranged
  · rename_i listed
    rcases extracts with ⟨-, answers, deeds, calls⟩
    exact unpacks.arranged_of_callsAll disciplined listed calls

/-- Extraction comes to the same in scenes in which the same is listed. -/
theorem Unpacks.extract {answer answerAgain : Except RunFailure StageStatus} (reordered : first.Reordered second)
    (listed : work.listArchives second.tree = work.listArchives first.tree)
    (extracts : work.ExtractsTo (work.cache.root.join temp) first answer after)
    (extractsAgain : work.ExtractsTo (work.cache.root.join temp) second answerAgain afterAgain) :
    answerAgain = answer ∧ after.Reordered afterAgain := by
  rw [ExtractsTo, listed] at extractsAgain
  rw [ExtractsTo] at extracts
  cases found : work.listArchives first.tree with
  | error failure =>
      rw [found] at extracts extractsAgain
      rcases extracts with ⟨rfl, rfl⟩
      rcases extractsAgain with ⟨rfl, rfl⟩
      exact ⟨rfl, reordered⟩
  | ok files =>
      cases files with
      | none =>
          rw [found] at extracts extractsAgain
          rcases extracts with ⟨rfl, rfl⟩
          rcases extractsAgain with ⟨rfl, rfl⟩
          exact ⟨rfl, reordered⟩
      | some files =>
          rw [found] at extracts extractsAgain
          rcases extracts with ⟨rfl, answers, deeds, calls⟩
          rcases extractsAgain with ⟨rfl, answersAgain, deedsAgain, callsAgain⟩
          exact ⟨rfl, unpacks.reordered disciplined found reordered calls callsAgain⟩

end Extraction

end AddonWork

/-! ## Conversion -/

/-- In another order the directories hold the same configs. -/
theorem allConfigs_perm {tree other : FileTree} {directories others : List Path} (same : tree.SameEntries other)
    (named : tree.Named) (perm : directories.Perm others) :
    (allConfigs directories tree).binaries.Perm (allConfigs others other).binaries ∧
      (allConfigs directories tree).texts.Perm (allConfigs others other).texts := by
  unfold allConfigs
  simp only [configFiles_eq same named]
  exact ⟨perm.flatMap_right _, perm.flatMap_right _⟩

namespace AddonWork

/-- Whether conversion, of which no worker is refused or aborted, makes a scene of another one, with the configs to
parse. -/
def ConvertsTo (work : AddonWork) (before : Scene) (configs : List Path) (after : Scene) : Prop :=
  configs = Path.sort after.converted ∧ ∃ answers deeds,
    CallsAll work.conversionDuty conversionHabit (allConfigs before.extracted before.tree).binaries
      { before with converted := (allConfigs before.extracted before.tree).texts } answers deeds after

/-- Workers convert binary configs one after another, in some order. -/
theorem convertsTo_of_completes
    (never : ∀ binary text limit, NeverAborts (work.environment.tools.convert binary text limit))
    {answer : Except RunFailure (StageStatus × List Path)}
    (completes : Completes work.addon work.convert begun answer ended)
    (unrefused : ∀ refusal, answer ≠ .error (.workerRefused refusal)) :
    ∃ configs, answer = .ok (.completed, configs) ∧
      work.ConvertsTo (begun.scene work.addon) configs (ended.scene work.addon) := by
  have attains : Attains work.addon work.convert (begun.scene work.addon) fun answer after =>
      (∀ refusal, answer ≠ .error (.workerRefused refusal)) →
        ∃ configs, answer = .ok (.completed, configs) ∧ work.ConvertsTo (begun.scene work.addon) configs after := by
    apply @attains_convertBy _ work conversionHabit.Completes
    · intro bucket
      exact (performs_convertEach bucket).returns (returns_convertEach never bucket)
    · exact fun refusal after accepted => absurd rfl (accepted refusal)
    · intro after shared _
      exact ⟨_, rfl, rfl, shared.exists_callsAll diligent_conversionHabit⟩
  exact completes.attained attains stages_convert.follow unrefused

section Conversion

variable {base : FileTree} {configs configsAgain : List Path} (disciplined : Disciplined work.environment.tools)
  (arranged : work.Arranged temp base first)
  (single : SingleBinaries (work.extractedAt temp) first.extracted first.tree)

include arranged in
theorem Arranged.convertible : Convertible (work.extractedAt temp) first.extracted first.tree
    (allConfigs first.extracted first.tree).binaries first.tree where
  nodup := nodup_binaries arranged.laidOut.formed arranged.laidOut.sideBySide.noFile
    (arranged.laidOut.sideBySide.pairwise_shareNone arranged.nodup)
  areBinaries _ := (mem_allBinaries_iff arranged.laidOut.formed arranged.laidOut.sideBySide).1
  formed := arranged.laidOut.formed
  named := arranged.named
  rewrites := .refl

include arranged in
/-- Configs to parse are below the directory for the archives. -/
theorem Arranged.exists_descend {answers : List (Path × Bool)} {deeds : List Deed}
    (calls : CallsAll work.conversionDuty conversionHabit (allConfigs first.extracted first.tree).binaries
      { first with converted := (allConfigs first.extracted first.tree).texts } answers deeds after) {config : Path}
    (member : config ∈ after.converted) :
    ∃ below, (∀ name ∈ below, Path.IsName name) ∧ config = (work.extractedAt temp).descend below := by
  have laidOut := arranged.laidOut
  have chosen : config ∈ (allConfigs first.extracted first.tree).texts ++
      (allConfigs first.extracted first.tree).binaries.map convertedConfig := by
    rcases List.mem_append.1 (calls.converted.mem_iff.1 member) with isText | isConverted
    · exact List.mem_append_left _ isText
    · rcases List.mem_map.1 isConverted with ⟨binary, isCalled, rfl⟩
      rcases List.mem_map.1 isCalled with ⟨answer, inAnswers, rfl⟩
      apply List.mem_append_right
      apply List.mem_map_of_mem
      exact calls.dealt.mem_iff.1 (List.mem_map_of_mem (List.mem_filter.1 inAnswers).1)
  rcases (mem_chosen_iff laidOut.formed laidOut.ends laidOut.sideBySide).1 chosen with ⟨below, isChosen, rfl⟩
  exact ⟨below, isChosen.names laidOut.formed, rfl⟩

include arranged in
/-- Configs to parse are sorted alike in whatever order they become ready. -/
theorem Arranged.sort_converted_eq {answers : List (Path × Bool)} {deeds : List Deed} {others : List Path}
    (calls : CallsAll work.conversionDuty conversionHabit (allConfigs first.extracted first.tree).binaries
      { first with converted := (allConfigs first.extracted first.tree).texts } answers deeds after)
    (perm : after.converted.Perm others) : Path.sort others = Path.sort after.converted := by
  symm
  apply Path.sort_eq_of_perm perm
  intro config member other otherMember same
  rcases arranged.exists_descend calls member with ⟨below, areNames, rfl⟩
  rcases arranged.exists_descend calls otherMember with ⟨otherBelow, otherNames, rfl⟩
  rw [Path.descend_injective arranged.laidOut.ends areNames otherNames same]

include disciplined arranged single

/-- What binary configs are converted to does not depend on the order. -/
theorem Arranged.convert (reordered : first.Reordered second) (converts : work.ConvertsTo first configs after)
    (convertsAgain : work.ConvertsTo second configsAgain afterAgain) :
    configsAgain = configs ∧ after.Reordered afterAgain := by
  rcases converts with ⟨rfl, answers, deeds, calls⟩
  rcases convertsAgain with ⟨rfl, answersAgain, deedsAgain, callsAgain⟩
  have independent := independent_conversions disciplined.convertsInPlace disciplined.goByInput arranged.laidOut.formed
    arranged.laidOut.separate single
  rcases allConfigs_perm reordered.tree arranged.named reordered.extracted with ⟨binaries, texts⟩
  have ready := independent.perm arranged.convertible calls.dealt.symm
  have perm := calls.dealt.trans (binaries.trans callsAgain.dealt.symm)
  rcases independent.doEach_perm perm ready reordered.tree with ⟨trees, replies⟩
  have called := calls.doEach_eq plain_conversionDuty
  have calledAgain := callsAgain.doEach_eq plain_conversionDuty
  simp only at called calledAgain
  rw [called, calledAgain] at trees replies
  have converted : after.converted.Perm afterAgain.converted := by
    refine calls.converted.trans (List.Perm.trans ?_ callsAgain.converted.symm)
    exact texts.append (((replies.filter _).map _).map _)
  constructor
  · exact arranged.sort_converted_eq calls converted
  · rcases scene_of_along calls.along with ⟨extracted, configs, -⟩
    rcases scene_of_along callsAgain.along with ⟨extractedAgain, configsAgain, -⟩
    constructor
    · exact trees
    · rw [extracted, extractedAgain]
      exact reordered.extracted
    · rw [configs, configsAgain]
      exact reordered.configs
    · rw [calls.errors plain_conversionDuty diligent_conversionHabit,
        callsAgain.errors plain_conversionDuty diligent_conversionHabit, replies.countP_eq]
      exact congrArg (· + _) reordered.errors

end Conversion

end AddonWork

/-! ## Parsing and saving -/

/-- Whether what is read of a config does not depend on the order of listing. -/
def ReadsSteadily (reader : ConfigReader) : Prop :=
  ∀ config includeDirectory first second, first.SameEntries second →
    (reader config includeDirectory second).result = (reader config includeDirectory first).result

theorem readsSteadily_plainReader : ReadsSteadily plainReader :=
  fun config includeDirectory _ _ same => congrArg ReadEffect.result (plainReader_eq same config includeDirectory)

theorem ReadsSteadily.readResult_eq {reader : ConfigReader} (reads : ReadsSteadily reader) {tree other : FileTree}
    (same : tree.SameEntries other) : readResult reader other = readResult reader tree :=
  funext fun _ => reads _ _ tree other same

/-- Configs are read alike in scenes that hold the same. -/
theorem Scene.Reordered.read {reader : ConfigReader} (reads : ReadsSteadily reader) (reordered : first.Reordered second)
    (configs : List Path) :
    (configs.foldl (Scene.read reader) first).Reordered (configs.foldl (Scene.read reader) second) := by
  rw [foldl_read, foldl_read]
  refine ⟨reordered.tree, reordered.extracted, ?_, ?_⟩
  · simp only [parsedConfigs, reads.readResult_eq reordered.tree, reordered.configs]
  · simp only [reads.readResult_eq reordered.tree, reordered.errors]

/-- The scene after the extraction directories were deleted, and the directory for them if it was empty then. -/
def Scene.clear (origin : Path) (scene : Scene) : Scene :=
  { scene with tree := ((FileOp.removeDirectory origin).run
      (doEach (fun directory tree => (FileOp.removeTree directory).run tree) scene.extracted scene.tree).1).1 }

namespace AddonWork

end AddonWork

namespace AddonWork

variable {base : FileTree} {scene : Scene}

theorem Arranged.removable (arranged : work.Arranged temp base scene) :
    FileOp.Removable base (work.extractedAt temp) scene.extracted scene.tree where
  nodup := arranged.nodup
  areNamed := arranged.laidOut.sideBySide.named
  distinct := arranged.laidOut.formed.distinct
  named := arranged.named
  workingDirectory := arranged.workingDirectory

end AddonWork

/-- Extraction directories are deleted in any order. -/
theorem Scene.Reordered.clear {base : FileTree} {origin : Path}
    (avoids : ∀ stem, base.Avoids origin (base.location origin ++ [stem])) (reordered : first.Reordered second)
    (removable : FileOp.Removable base origin first.extracted first.tree) :
    (first.clear origin).Reordered (second.clear origin) where
  tree := by
    have trees := ((FileOp.independent_removals avoids).doEach_perm reordered.extracted removable reordered.tree).1
    exact (FileOp.agrees_removeDirectory origin _ _ trees).2
  extracted := reordered.extracted
  configs := reordered.configs
  errors := reordered.errors

end AddonIndex.Indexing
