import AddonIndex.Proofs.Indexing.Saving
import AddonIndex.Proofs.Indexing.Unpacking

/-!
# Where archives are extracted to

Each archive is extracted to the directory of its stem. The stem is a name
unless it consists of dots: archives are selected by what follows the last dot,
whatever precedes it. So the archives of an addon are extracted apart from each
other exactly if their stems differ and none of them is a dot or two.
-/

namespace AddonIndex.Indexing

open Activity FileTree

variable {α : Type} {work : AddonWork} {tree : FileTree} {destination : Path} {files : List Path}

/-! ## Directories for archives -/

/-- Whether archives are extracted strictly below a directory, none of them to or below where another
one is. -/
structure Apart (tree : FileTree) (destination : Path) (files : List Path) : Prop where
  below : ∀ archive ∈ files,
    tree.location destination <+: tree.location (AddonWork.extractionDirectory destination archive) ∧
      tree.location (AddonWork.extractionDirectory destination archive) ≠ tree.location destination
  separate : ∀ archive ∈ files, ∀ other ∈ files, archive ≠ other →
    ¬ tree.location (AddonWork.extractionDirectory destination archive) <+:
      tree.location (AddonWork.extractionDirectory destination other)

/-- Whether archives have stems that differ and are more than a dot or two. -/
structure Told (files : List Path) : Prop where
  noDots : ∀ archive ∈ files, archive.fileStem? ≠ some ['.'] ∧ archive.fileStem? ≠ some ['.', '.']
  differ : ∀ archive ∈ files, ∀ other ∈ files, archive.fileStem? = other.fileStem? → archive = other

/-- Whether two extraction directories do not concern each other: an extractor that writes below the
first one changes nothing at or below the second, no file is found below both, and they are
saved under different names. -/
structure Unrelated (tools : ArchiveTools) (tree : FileTree) (directory other : Path) : Prop where
  overwrites : ExtractsBelow tools → ∀ archive limit next, next.WellFormed →
    next.workingDirectory = tree.workingDirectory → ∀ place, tree.location other <+: place →
      (tools.extract archive directory limit next).tree.entryAt? place = next.entryAt? place
  scans : ∀ next : FileTree, next.WellFormed → next.workingDirectory = tree.workingDirectory →
    ∀ file ∈ next.filesBelow directory, ∀ found ∈ next.filesBelow other,
      next.location file ≠ next.location found
  saves : directory.fileName? ≠ other.fileName?

/-- Whether archives have stems that can be written between slashes, be they names or dots. -/
def HaveStems (files : List Path) : Prop :=
  ∀ archive ∈ files, ∃ stem, archive.fileStem? = some stem ∧ stem ≠ [] ∧ '/' ∉ stem

/-- Archives are called like entries of the tree. -/
theorem exists_entry_of_archives {container archive : Path} (areArchives : archives container tree = .ok files)
    (member : archive ∈ files) : ∃ name, archive = container.join name ∧ ∃ item ∈ tree.entries, name ∈ item.1 := by
  obtain ⟨children, listed, isFiltered⟩ := bind_eq_ok_iff.1 areArchives
  cases isFiltered
  rw [Path.sort, List.mem_mergeSort] at member
  obtain ⟨⟨name, entry⟩, isChild, rfl⟩ := List.mem_map.1 member
  obtain ⟨⟨place, found⟩, -, isList⟩ := bind_eq_ok_iff.1 listed
  cases found with
  | file content executable => cases isList
  | directory =>
      cases isList
      have isEntry := mem_entries_of_mem_children (List.mem_filter.1 isChild).1
      exact ⟨name, rfl, _, isEntry, List.mem_append_right _ List.mem_cons_self⟩

/-- Archives are listed by name. -/
theorem exists_join_of_archives (named : ∀ item ∈ tree.entries, ∀ name ∈ item.1, Path.IsName name)
    {container archive : Path} (areArchives : archives container tree = .ok files) (member : archive ∈ files) :
    ∃ name, Path.IsName name ∧ archive = container.join name := by
  obtain ⟨name, isArchive, item, isEntry, inEntry⟩ := exists_entry_of_archives areArchives member
  exact ⟨name, named item isEntry name inEntry, isArchive⟩

theorem haveStems_of_names (named : ∀ item ∈ tree.entries, ∀ name ∈ item.1, Path.IsName name) {container : Path}
    (areArchives : archives container tree = .ok files) : HaveStems files := by
  intro archive member
  obtain ⟨name, isName, rfl⟩ := exists_join_of_archives named areArchives member
  exact ⟨_, by rw [Path.fileStem?, Path.fileName?_join container isName]; rfl, Path.stem_of_isName isName⟩

theorem haveStems_of_archives (formed : tree.WellFormed) {container : Path}
    (areArchives : archives container tree = .ok files) : HaveStems files :=
  haveStems_of_names formed.named areArchives

/-- If the extensions of all archives are spelled alike, nothing but dots stands in the way. -/
theorem told_iff_of_spelled (formed : tree.WellFormed) {container : Path}
    (areArchives : archives container tree = .ok files)
    (spelled : ∀ archive ∈ files, ∀ other ∈ files, archive.extension? = other.extension?) :
    Told files ↔
      ∀ archive ∈ files, archive.fileStem? ≠ some ['.'] ∧ archive.fileStem? ≠ some ['.', '.'] := by
  refine ⟨Told.noDots, fun noDots => ⟨noDots, fun archive member other inFiles same => ?_⟩⟩
  have alike := spelled archive member other inFiles
  obtain ⟨name, isName, rfl⟩ := exists_join_of_archives formed.named areArchives member
  obtain ⟨otherName, otherIsName, rfl⟩ := exists_join_of_archives formed.named areArchives inFiles
  simp only [Path.fileStem?, Path.extension?, Path.fileName?_join _ isName, Path.fileName?_join _ otherIsName,
    Option.map_some, Option.bind_some, Option.some.injEq] at same alike
  rw [Path.splitExtension_injective (Prod.ext same alike)]

theorem extractionDirectory_eq {archive : Path} {stem : Text} (isStem : archive.fileStem? = some stem) :
    AddonWork.extractionDirectory destination archive = destination.join stem := by
  rw [AddonWork.extractionDirectory, isStem, Option.getD_some]

/-- Stems that are more than dots are names. -/
theorem Told.exists_isName (told : Told files) (haveStems : HaveStems files) {archive : Path}
    (member : archive ∈ files) : ∃ stem, archive.fileStem? = some stem ∧ Path.IsName stem := by
  obtain ⟨stem, isStem, nonempty, noSlash⟩ := haveStems archive member
  obtain ⟨notHere, notUp⟩ := told.noDots archive member
  rw [isStem, ne_eq, Option.some.injEq] at notHere notUp
  exact ⟨stem, isStem, nonempty, noSlash, notHere, notUp⟩

/-- Archives are extracted apart from each other exactly if their stems tell them apart and are no dots. -/
theorem apart_iff_told (haveStems : HaveStems files) : Apart tree destination files ↔ Told files := by
  constructor
  · intro apart
    refine ⟨fun archive member => ⟨fun here => ?_, fun up => ?_⟩, fun archive member other inFiles same => ?_⟩
    · refine (apart.below archive member).2 ?_
      rw [extractionDirectory_eq here, location_join_part destination (by decide) (by decide)]
      rfl
    · obtain ⟨isPrefix, differs⟩ := apart.below archive member
      rw [extractionDirectory_eq up, location_join_part destination (by decide) (by decide)] at isPrefix differs
      exact differs (isPrefix.eq_of_length_le (List.dropLast_sublist _).length_le).symm
    · by_contra differ
      refine apart.separate archive member other inFiles differ ?_
      obtain ⟨stem, isStem, -⟩ := haveStems archive member
      have together : AddonWork.extractionDirectory destination archive =
          AddonWork.extractionDirectory destination other := by
        rw [extractionDirectory_eq isStem, extractionDirectory_eq (same.symm.trans isStem)]
      exact ⟨[], by rw [together, List.append_nil]⟩
  · intro told
    refine ⟨fun archive member => ?_, fun archive member other inFiles differ isPrefix => differ ?_⟩
    · obtain ⟨stem, isStem, isName⟩ := told.exists_isName haveStems member
      rw [extractionDirectory_eq isStem, location_join_name destination isName]
      exact ⟨List.prefix_append _ _, fun same => by simpa using congrArg List.length same⟩
    · obtain ⟨stem, isStem, isName⟩ := told.exists_isName haveStems member
      obtain ⟨otherStem, isOther, otherIsName⟩ := told.exists_isName haveStems inFiles
      rw [extractionDirectory_eq isStem, extractionDirectory_eq isOther, location_join_name destination isName,
        location_join_name destination otherIsName] at isPrefix
      have same : stem = otherStem := by simpa using isPrefix.eq_of_length (by simp)
      exact told.differ archive member other inFiles (by rw [isStem, isOther, same])

/-- Archives that are extracted apart from each other do not concern each other. -/
theorem Apart.unrelated (haveStems : HaveStems files) (apart : Apart tree destination files)
    {archive other : Path} (member : archive ∈ files) (inFiles : other ∈ files) (differ : archive ≠ other)
    (tools : ArchiveTools) :
    Unrelated tools tree (AddonWork.extractionDirectory destination archive)
      (AddonWork.extractionDirectory destination other) := by
  have noPlace : ∀ place,
      tree.location (AddonWork.extractionDirectory destination archive) <+: place →
        ¬ tree.location (AddonWork.extractionDirectory destination other) <+: place :=
    fun place below atOther => (List.prefix_or_prefix_of_prefix below atOther).elim
      (apart.separate archive member other inFiles differ)
      (apart.separate other inFiles archive member differ.symm)
  refine ⟨fun extractsBelow input limit next formed workingDirectory place atOther => ?_,
    fun next formed workingDirectory file isFile found isFound same => ?_, fun same => differ ?_⟩
  · obtain ⟨-, -, changes⟩ :=
      extractsBelow input (AddonWork.extractionDirectory destination archive) limit next formed
    rw [location_congr workingDirectory] at changes
    rcases changes place with unchanged | ⟨below, -⟩ | ⟨above, -⟩
    · exact unchanged
    · exact absurd atOther (noPlace place below)
    · exact absurd (atOther.trans above) (noPlace _ (List.prefix_refl _))
  · have below := location_prefix_of_mem_filesBelow formed isFile
    have otherBelow := location_prefix_of_mem_filesBelow formed isFound
    rw [location_congr workingDirectory (AddonWork.extractionDirectory destination archive), same] at below
    rw [location_congr workingDirectory (AddonWork.extractionDirectory destination other)] at otherBelow
    exact noPlace _ below otherBelow
  · have told := (apart_iff_told haveStems).1 apart
    obtain ⟨stem, isStem, isName⟩ := told.exists_isName haveStems member
    obtain ⟨otherStem, isOther, otherIsName⟩ := told.exists_isName haveStems inFiles
    rw [extractionDirectory_eq isStem, extractionDirectory_eq isOther, Path.fileName?_join destination isName,
      Path.fileName?_join destination otherIsName] at same
    exact told.differ archive member other inFiles (by rw [isStem, isOther, same])

/-! ## Steps of an extraction -/

/-- What a step of an extraction does to the files and the list of extraction directories: nothing,
or it notes the directory of an archive, or it extracts an archive to its directory. -/
inductive ExtractionStep (work : AddonWork) (destination : Path) (files : List Path)
    (before after : World) : Prop
  | idle (same : SameFiles before after)
  | notes (archive : Path) (isArchive : archive ∈ files) (tree : after.tree = before.tree)
      (extracted : after.extracted =
        before.extracted ++ [AddonWork.extractionDirectory destination archive])
  | extracts (archive : Path) (isArchive : archive ∈ files)
      (tree : after.tree = (work.environment.tools.extract archive
        (AddonWork.extractionDirectory destination archive) work.environment.settings.extractTimeout
        before.tree).tree)
      (extracted : after.extracted = before.extracted)

/-- Whether the extraction directories of a world are those of an earlier one and of archives. -/
def NotesOnly (destination : Path) (files : List Path) (before after : World) : Prop :=
  ∀ directory ∈ after.extracted, directory ∈ before.extracted ∨
    ∃ archive ∈ files, directory = AddonWork.extractionDirectory destination archive

theorem NotesOnly.of_sameFiles {before after : World} (same : SameFiles before after) :
    NotesOnly destination files before after :=
  fun _ member => .inl (same.extracted ▸ member)

theorem NotesOnly.trans {first second third : World} (before : NotesOnly destination files first second)
    (after : NotesOnly destination files second third) : NotesOnly destination files first third :=
  fun directory member => (after directory member).elim (before directory) .inr

theorem ExtractionStep.notesOnly {before after : World}
    (step : ExtractionStep work destination files before after) : NotesOnly destination files before after := by
  cases step with
  | idle same => exact .of_sameFiles same
  | notes archive isArchive _ extracted =>
      intro directory member
      rw [extracted] at member
      rcases List.mem_append.1 member with earlier | new
      · exact .inl earlier
      · exact .inr ⟨archive, isArchive, List.mem_singleton.1 new⟩
  | extracts _ _ _ extracted => exact fun _ member => .inl (extracted ▸ member)

/-- Whether every step of an activity is a step of the extraction of archives. -/
abbrev Extracting (work : AddonWork) (destination : Path) (files : List Path) (activity : Run α) : Prop :=
  Always (ExtractionStep work destination files) activity

theorem extracting_of_sameFiles {activity : Run α} (same : Always SameFiles activity) :
    Extracting work destination files activity :=
  same.mono fun _ _ => .idle

theorem sameFiles_inspect (look : World → α) : Always SameFiles (inspect look) :=
  always_inspect SameFiles.refl

theorem extracting_callTool {archive : Path} (isArchive : archive ∈ files) :
    Extracting work destination files (callTool (work.environment.tools.extract archive
      (AddonWork.extractionDirectory destination archive) work.environment.settings.extractTimeout)) := by
  refine Always.bind (always_act fun world => ?_) fun reply => ?_
  · let effect := work.environment.tools.extract archive (AddonWork.extractionDirectory destination archive)
      work.environment.settings.extractTimeout world.tree
    have same := SameFiles.of_gap (gap_cancelNamed { world with tree := effect.tree } effect.cancelled)
    exact .extracts archive isArchive same.tree same.extracted
  · cases reply <;> trivial

namespace AddonWork

theorem sameFiles_reportTool (action : Text) (input output : Path) (record : Tally → Bool → Tally)
    (result : Except ToolError ToolOutcome) :
    Always SameFiles (work.reportTool action input output record result) := by
  unfold reportTool
  split
  · exact (sameFiles_count _).bind fun _ => (sameFiles_message _).bind fun _ => always_pure _
  · exact (sameFiles_count _).bind fun _ => (sameFiles_error _ _ _).bind fun _ => always_pure _
  · exact (sameFiles_count _).bind fun _ => (sameFiles_error _ _ _).bind fun _ => always_pure _

theorem sameFiles_reportAborted (workers : List Text) : Always SameFiles (work.reportAborted workers) := by
  induction workers with
  | nil => trivial
  | cons worker rest ih => exact (sameFiles_error _ _ _).bind fun _ => ih

/-- A worker extracts each of its archives to the directory of that archive. -/
theorem extracting_extractEach (bucket : List SizedFile) (areArchives : ∀ file ∈ bucket, file.path ∈ files) :
    Extracting work destination files (work.extractEach destination bucket) := by
  induction bucket with
  | nil => trivial
  | cons archive rest ih =>
      obtain ⟨isArchive, areArchives⟩ := List.forall_mem_cons.1 areArchives
      unfold extractEach
      refine (extracting_of_sameFiles (sameFiles_inspect _)).bind fun cancelled => ?_
      split
      · trivial
      · refine Always.bind (always_modify fun world => ?_) fun _ =>
          (extracting_callTool isArchive).bind fun result =>
            (extracting_of_sameFiles (sameFiles_reportTool _ _ _ _ result)).bind fun _ =>
              (extracting_of_sameFiles sameFiles_unitDone).bind fun _ => ih areArchives
        exact .notes archive.path isArchive rfl rfl

/-- Whatever the pool, a worker is given no other archives than those of the addon. -/
theorem extracting_shareOut :
    Extracting work destination files
      (work.shareOut "Extracting PBOs" files (work.extractEach destination)) := by
  refine always_inspect_bind (fun world => .idle (.refl world)) fun world => Always.bind ?_ fun report => ?_
  · unfold WorkerPool.run
    refine (always_together fun thread member => ?_).bind fun ended => ?_
    · obtain ⟨⟨worker, bucket⟩, started, rfl⟩ := List.mem_map.1 member
      refine (extracting_of_sameFiles (sameFiles_note _)).bind fun _ =>
        extracting_extractEach bucket fun file inBucket => ?_
      obtain ⟨path, isArchive, rfl⟩ := List.mem_map.1 (WorkerPool.mem_of_started started inBucket)
      exact isArchive
    · split <;> trivial
  · split
    · trivial
    · exact (extracting_of_sameFiles (sameFiles_reportAborted _)).bind fun _ => always_pure _

theorem extracting_extractAll {container : Path} :
    Extracting work destination files (show Run (Except RunFailure StageStatus) from do
      note (Text.ofNat files.length ++ " PBO files found in ".toList ++ container.text)
      beginWork work.addon files.length
      match ← work.shareOut "Extracting PBOs" files (work.extractEach destination) with
      | .error failure => return .error failure
      | .ok () => return .ok (← work.status)) := by
  refine (extracting_of_sameFiles (sameFiles_note _)).bind fun _ =>
    (extracting_of_sameFiles (sameFiles_beginWork _)).bind fun _ => extracting_shareOut.bind fun shared => ?_
  split
  · trivial
  · refine Always.bind ((extracting_of_sameFiles (sameFiles_inspect _)).bind fun cancelled => ?_) fun _ =>
      always_pure _
    split <;> trivial

/-- Every step of the stage that extracts archives is a step of the extraction of those that are found. -/
theorem extractionStep_of_extract {tempRoot container : Path} {world after : World} {moves : List (Move World)}
    {result : Option (Except RunFailure StageStatus)}
    (isContainer : archiveContainer? work.addon.directory world.tree = .ok (some container))
    (areArchives : archives container world.tree = .ok files)
    (execution : Executes Interference (work.extract tempRoot) world moves after result) :
    ∀ move ∈ moves, ExtractionStep work (tempRoot.join work.addon.name) files move.1 move.2 := by
  obtain ⟨answer, rfl⟩ := (work.stages_extract tempRoot).returns.of_traces execution.1
  obtain ⟨starting, middle, ending, inside, inStage⟩ := exists_inStage execution
  obtain rfl := inStage.moves
  -- Nothing before the two looks changes files, so they find the archives that are there at first.
  obtain ⟨looking, _, rfl, toLooking, inner⟩ := executes_inspect_bind_iff.1 inStage.executes
  have begins : SameFiles world looking :=
    (SameFiles.of_gap inStage.starts).trans ((SameFiles.submit _ _).trans (.of_gap toLooking))
  rw [← begins.tree] at isContainer
  simp only [isContainer] at inner
  obtain ⟨listing, rest, rfl, toListing, inner⟩ := executes_inspect_bind_iff.1 inner
  have lists := begins.trans (.of_gap toListing)
  rw [← lists.tree] at areArchives
  simp only [areArchives] at inner
  intro move member
  simp only [List.mem_cons, List.mem_append, List.not_mem_nil, or_false] at member
  rcases member with rfl | (rfl | rfl | inRest) | rfl
  · exact .idle (.submit _ _)
  · exact .idle (.refl _)
  · exact .idle (.refl _)
  · exact extracting_extractAll.of_traces inner.1 move inRest
  · exact .idle (.submit _ _)

/-- Whatever the archives are called, however many workers there are and in whatever order they work, every
archive is extracted to the directory of its stem. The archives are extracted apart from each other,
and then do not concern each other, exactly if their stems tell them apart and are no dots. -/
theorem apart_iff_of_extract {tempRoot container : Path} {world after : World} {moves : List (Move World)}
    {result : Option (Except RunFailure StageStatus)} (formed : world.tree.WellFormed)
    (isContainer : archiveContainer? work.addon.directory world.tree = .ok (some container))
    (areArchives : archives container world.tree = .ok files)
    (execution : Executes Interference (work.extract tempRoot) world moves after result) :
    (∀ move ∈ moves, ExtractionStep work (tempRoot.join work.addon.name) files move.1 move.2) ∧
      NotesOnly (tempRoot.join work.addon.name) files world after ∧
      (Apart world.tree (tempRoot.join work.addon.name) files ↔ Told files) ∧
      (Apart world.tree (tempRoot.join work.addon.name) files → ∀ archive ∈ files, ∀ other ∈ files,
        archive ≠ other → Unrelated work.environment.tools world.tree
          (extractionDirectory (tempRoot.join work.addon.name) archive)
          (extractionDirectory (tempRoot.join work.addon.name) other)) := by
  have haveStems := haveStems_of_archives formed areArchives
  have steps := extractionStep_of_extract isContainer areArchives execution
  have noted : NotesOnly (tempRoot.join work.addon.name) files world after := by
    refine execution.2.relates ?_ ?_ ?_ fun move member => (steps move member).notesOnly
    · exact fun world => .of_sameFiles (.refl world)
    · exact fun _ _ _ => NotesOnly.trans
    · exact fun _ _ interferes => .of_sameFiles (.of_interference interferes)
  exact ⟨steps, noted, apart_iff_told haveStems, fun apart archive member other inFiles differ =>
    apart.unrelated haveStems member inFiles differ _⟩

end AddonWork

/-! ## Archives with the same stem -/

/-- A world in which the addon has archives of the given names. -/
def archivesWorld (names : List Text) : World where
  tree :=
    { entries := [(["ref".toList], .directory), (["ref".toList, "temp".toList], .directory),
        (["mods".toList], .directory), (["mods".toList, "@A".toList], .directory),
        (["mods".toList, "@A".toList, "addons".toList], .directory)] ++
          names.map fun name =>
            (["mods".toList, "@A".toList, "addons".toList, name], .file ByteArray.empty false) }
  handles := [failingWork.addon]
  progress := [{}]

/-- Archives that are found in path order are listed as they are found. -/
theorem archives_eq_of_sorted {container : Path} (found : archives container tree = .ok (Path.sort files))
    (sorted : files.Pairwise fun a b => a.le b = true) : archives container tree = .ok files := by
  rw [found, Path.sort, List.mergeSort_of_pairwise sorted]

/-- A world with two archives of which one stem begins the other. -/
def mainArchives : World := archivesWorld ["main.b.PBO".toList, "main.pbo".toList]

/-- Both archives are found, and whatever is extracted is extracted apart. -/
theorem different_stems_apart :
    archives "mods/@A/addons" mainArchives.tree =
        .ok ["mods/@A/addons/main.b.PBO", "mods/@A/addons/main.pbo"] ∧
      ∃ moves after result, Executes Interference (failingWork.extract "ref/temp") mainArchives moves after result ∧
        (∀ move ∈ moves, ExtractionStep failingWork "ref/temp/@A"
          ["mods/@A/addons/main.b.PBO", "mods/@A/addons/main.pbo"] move.1 move.2) ∧
        Apart mainArchives.tree "ref/temp/@A" ["mods/@A/addons/main.b.PBO", "mods/@A/addons/main.pbo"] := by
  have listed : archives "mods/@A/addons" mainArchives.tree =
      .ok ["mods/@A/addons/main.b.PBO", "mods/@A/addons/main.pbo"] :=
    archives_eq_of_sorted rfl (by decide +kernel)
  have told : Told ["mods/@A/addons/main.b.PBO", "mods/@A/addons/main.pbo"] :=
    ⟨by decide +kernel, by decide +kernel⟩
  obtain ⟨moves, execution⟩ :
      ∃ moves, Executes Interference (failingWork.extract "ref/temp") mainArchives moves _ _ :=
    executes_run (failingWork.extract "ref/temp") mainArchives
  obtain ⟨steps, -, apart_iff, -⟩ := @AddonWork.apart_iff_of_extract failingWork
    ["mods/@A/addons/main.b.PBO", "mods/@A/addons/main.pbo"] "ref/temp" "mods/@A/addons" _ _ _ _
    (wellFormed_of_entries (by decide +kernel) (by decide +kernel) (by decide +kernel))
    (by decide +kernel) listed execution
  exact ⟨listed, moves, _, _, execution, steps, apart_iff.2 told⟩

/-- Two archives whose names differ in the case of the extension are extracted to the same directory. -/
theorem archives_not_apart :
    ¬ ∀ (work : AddonWork) (tempRoot container : Path) (files : List Path) (world after : World)
      (moves : List (Move World)) (result : Option (Except RunFailure StageStatus)),
      world.tree.WellFormed → archiveContainer? work.addon.directory world.tree = .ok (some container) →
        archives container world.tree = .ok files →
          Executes Interference (work.extract tempRoot) world moves after result →
            Apart world.tree (tempRoot.join work.addon.name) files := by
  intro claimed
  obtain ⟨moves, execution⟩ : ∃ moves, Executes Interference (failingWork.extract "ref/temp")
      (archivesWorld ["main.PBO".toList, "main.pbo".toList]) moves _ _ :=
    executes_run (failingWork.extract "ref/temp") (archivesWorld ["main.PBO".toList, "main.pbo".toList])
  have apart := claimed failingWork "ref/temp" "mods/@A/addons"
    ["mods/@A/addons/main.PBO", "mods/@A/addons/main.pbo"] _ _ _ _
    (wellFormed_of_entries (by decide +kernel) (by decide +kernel) (by decide +kernel))
    (by decide +kernel) (archives_eq_of_sorted rfl (by decide +kernel)) execution
  refine apart.separate "mods/@A/addons/main.PBO" (by simp) "mods/@A/addons/main.pbo" (by simp)
    (by decide +kernel) ?_
  decide +kernel

end AddonIndex.Indexing
