import AddonIndex.Indexing.Stages
import AddonIndex.Proofs.Reference.Construction
import AddonIndex.Proofs.Reference.Mirror

/-!
# What a saved entry holds

The scripts and headers below each extraction directory are saved to the entry, below the final name of the directory
and by the same names from there on. As long as no two of the directories have the same final name, and the ways to
them and the entry keep clear of each other, the entry then holds these files and nothing else but its marker.
-/

namespace AddonIndex.Indexing

open FileTree Location Reference

variable {cache : ReferenceCache} {addon : Text} {tree before after other : FileTree} {place : Location}
  {directories : List Path} {directory entry : Path} {name : Text} {names : List Text}
  {saved : Location → ByteArray → Prop} {plan : List (Text × SourceFile)}

/-! ## Which files are kept -/

/-- Whether a file of some content is in a directory, under some names, and is kept. -/
def HasToKeep (tree : FileTree) (directory : Path) (names : Location) (content : ByteArray) : Prop :=
  tree.isDirectory directory = true ∧ names.getLast?.any (fun name => isReferenceFile ⟨name⟩) = true ∧
    ∃ executable, tree.entryAt? (tree.location directory ++ names) = some (.file content executable)

/-- Whether a file is kept from one of several directories: below the final name of that directory, under the names
that it has in there, with its content. -/
def KeptFrom (tree : FileTree) (directories : List Path) (below : Location) (content : ByteArray) : Prop :=
  ∃ directory ∈ directories, ∃ name names, directory.fileName? = some name ∧ below = name :: names ∧
    HasToKeep tree directory names content

/-- What is copied for a file in a directory. -/
def keepAs (name : Text) (directory : Path) (names : Location) : Text × SourceFile :=
  (name, { source := directory.descend names, relative := Text.joinWith ['/'] names })

theorem HasToKeep.names_ne_nil {content : ByteArray} (has : HasToKeep tree directory names content) : names ≠ [] := by
  rintro rfl
  cases has.2.1

theorem HasToKeep.areNames {content : ByteArray} (formed : tree.WellFormed)
    (has : HasToKeep tree directory names content) : ∀ name ∈ names, Path.IsName name := by
  rcases has with ⟨-, -, executable, there⟩
  exact fun name member => formed.names there name (List.mem_append_right _ member)

theorem mem_referenceFiles_iff_hasToKeep (formed : tree.WellFormed) (noFile : tree.isFile directory = false)
    {file : SourceFile} :
    file ∈ ReferenceCache.referenceFiles directory tree ↔ ∃ names content, HasToKeep tree directory names content ∧
      file = { source := directory.descend names, relative := Text.joinWith ['/'] names } := by
  unfold ReferenceCache.referenceFiles
  rw [List.mem_filterMap]
  simp only [mem_findFiles_iff formed noFile, formed.distinct.mem_filesAt_iff]
  have relative : ∀ {names content}, HasToKeep tree directory names content →
      (directory.descend names).relativeTo? directory = some ⟨Text.joinWith ['/'] names⟩ := by
    intro names content has
    rcases isDirectory_iff.1 has.1 with ⟨place, found⟩
    exact Path.relativeTo?_descend_of_text (find_eq_directory_iff.1 found).1.1 (has.areNames formed)
  constructor
  · rintro ⟨_, ⟨there, names, ⟨-, content, executable, isFile⟩, isReference, rfl⟩, made⟩
    have has : HasToKeep tree directory names content := ⟨there, isReference, executable, isFile⟩
    rw [relative has] at made
    cases made
    exact ⟨names, content, has, rfl⟩
  · rintro ⟨names, content, has, rfl⟩
    rcases has with ⟨there, isReference, executable, isFile⟩
    have has : HasToKeep tree directory names content := ⟨there, isReference, executable, isFile⟩
    refine ⟨_, ⟨there, names, ⟨has.names_ne_nil, content, executable, isFile⟩, isReference, rfl⟩, ?_⟩
    rw [relative has]
    rfl

/-- Of a file in the place of a directory only that file itself can be found. -/
theorem eq_of_mem_referenceFiles_of_isFile (isFile : tree.isFile directory = true) {file : SourceFile}
    (member : file ∈ ReferenceCache.referenceFiles directory tree) :
    file = { source := directory.descend [], relative := Text.joinWith ['/'] [] } := by
  rcases isFile_iff.1 isFile with ⟨place, content, executable, found⟩
  rcases List.mem_filterMap.1 member with ⟨source, inFound, relative⟩
  rw [findFiles, Path.sort, List.mem_mergeSort, List.mem_filter, filesBelow, found] at inFound
  obtain rfl := List.mem_singleton.1 inFound.1
  have none := @Path.relativeTo?_descend_of_text source [] (find_eq_file_iff.1 found).1.1 (List.forall_mem_nil _)
  rw [Path.descend_nil] at none
  rw [none] at relative
  cases relative
  rfl

/-- What there is to save are the files that are kept, and perhaps files in the places of directories. -/
theorem exists_of_mem_savePlan (formed : tree.WellFormed) {item : Text × SourceFile}
    (member : item ∈ AddonWork.savePlan directories tree) :
    ∃ directory ∈ directories, ∃ name names, directory.fileName? = some name ∧ item = keepAs name directory names ∧
      (names = [] ∧ tree.isFile directory = true ∨ ∃ content, HasToKeep tree directory names content) := by
  rcases List.mem_flatMap.1 member with ⟨directory, isDirectory, planned⟩
  split at planned
  · rename_i name isFileName
    rcases List.mem_map.1 planned with ⟨file, found, rfl⟩
    refine ⟨directory, isDirectory, name, ?_⟩
    cases isFile : tree.isFile directory with
    | true =>
        obtain rfl := eq_of_mem_referenceFiles_of_isFile isFile found
        exact ⟨[], isFileName, rfl, .inl ⟨rfl, rfl⟩⟩
    | false =>
        rcases (mem_referenceFiles_iff_hasToKeep formed isFile).1 found with ⟨names, content, has, rfl⟩
        exact ⟨names, isFileName, rfl, .inr ⟨content, has⟩⟩
  · cases planned

theorem HasToKeep.mem_savePlan (formed : tree.WellFormed) {content : ByteArray}
    (has : HasToKeep tree directory names content) (member : directory ∈ directories)
    (isFileName : directory.fileName? = some name) :
    keepAs name directory names ∈ AddonWork.savePlan directories tree := by
  have noFile : tree.isFile directory = false := by
    rcases isDirectory_iff.1 has.1 with ⟨place, found⟩
    rw [isFile, found]
  refine List.mem_flatMap.2 ⟨directory, member, ?_⟩
  rw [isFileName]
  exact List.mem_map.2 ⟨_, (mem_referenceFiles_iff_hasToKeep formed noFile).2 ⟨names, content, has, rfl⟩, rfl⟩

/-! ## Directories apart from the entry -/

/-- Whether directories keep clear of a place: the way to each leads past it, and none is above it. -/
structure ApartFrom (tree : FileTree) (place : Location) (directories : List Path) : Prop where
  avoids : ∀ directory ∈ directories, tree.Avoids directory place
  notAbove : ∀ directory ∈ directories, ¬ tree.location directory <+: place

/-- Whether different directories have different final names. -/
def DifferInName (directories : List Path) : Prop :=
  ∀ first ∈ directories, ∀ second ∈ directories, ∀ name, first.fileName? = some name →
    second.fileName? = some name → first = second

theorem differInName_of_nodup (nodup : (directories.map Path.fileName?).Nodup) : DifferInName directories :=
  fun _ inFirst _ inSecond _ isFirst isSecond =>
    List.inj_on_of_nodup_map nodup inFirst inSecond (isFirst.trans isSecond.symm)

theorem written_ne_nil_of_fileName? (isFileName : directory.fileName? = some name) : directory.written ≠ [] := by
  intro nothing
  have idle : (directory.text.split (· == '/')).filterMap Path.partOf? = [] := by
    apply List.filterMap_eq_nil_iff.2
    intro part member
    have empty : part = [] := by simpa using List.filter_eq_nil_iff.1 nothing part member
    rw [empty]
    rfl
  unfold Path.fileName? Path.parts at isFileName
  simp only [idle, List.append_nil] at isFileName
  split_ifs at isFileName <;> cases isFileName

/-- The way to a directory that has a final name ends there. -/
theorem location_mem_visited (isFileName : directory.fileName? = some name) :
    tree.location directory ∈ visited (tree.start directory) directory.written := by
  rcases List.eq_nil_or_concat directory.written with nothing | ⟨front, last, written⟩
  · exact absurd nothing (written_ne_nil_of_fileName? isFileName)
  · rw [location, written, List.concat_eq_append, visited_append, List.foldl_append]
    exact List.mem_append_right _ List.mem_cons_self

namespace ApartFrom

theorem not_prefix (apart : ApartFrom tree place directories) (member : directory ∈ directories)
    (isFileName : directory.fileName? = some name) (below : Location) :
    ¬ place <+: tree.location directory ++ below := by
  intro isPrefix
  rcases List.prefix_or_prefix_of_prefix isPrefix (List.prefix_append _ _) with within | above
  · exact apart.avoids directory member _ (location_mem_visited isFileName) within
  · exact apart.notAbove directory member above

/-- The way to what is in one of the directories leads past the place too. -/
theorem avoids_descend (apart : ApartFrom tree place directories) (member : directory ∈ directories)
    (isFileName : directory.fileName? = some name) (areNames : ∀ name ∈ names, Path.IsName name) :
    tree.Avoids (directory.descend names) place :=
  (apart.avoids directory member).descend areNames fun front _ _ => apart.not_prefix member isFileName front

/-- Changes at the place keep the directories apart from it. -/
theorem of_changesWithin (apart : ApartFrom tree place directories) (within : ChangesWithin place tree after) :
    ApartFrom after place directories where
  avoids directory member := (apart.avoids directory member).start_congr within.workingDirectory
  notAbove directory member := by
    rw [within.location]
    exact apart.notAbove directory member

theorem hasToKeep_iff (apart : ApartFrom tree place directories) (within : ChangesWithin place tree after)
    (member : directory ∈ directories) (isFileName : directory.fileName? = some name) {content : ByteArray} :
    HasToKeep after directory names content ↔ HasToKeep tree directory names content := by
  have there : after.isDirectory directory = true ↔ tree.isDirectory directory = true := by
    rw [isDirectory_iff, isDirectory_iff]
    exact exists_congr fun place => (apart.avoids directory member).find_iff within.workingDirectory within.elsewhere
  unfold HasToKeep
  rw [there, within.location, within.elsewhere _ (apart.not_prefix member isFileName names)]

end ApartFrom

/-! ## Copies -/

/-- Whether files are copied one after another, all with success. -/
def Copies (entry : Path) : List (Text × SourceFile) → FileTree → FileTree → Prop
  | [], before, after => after = before
  | (directory, file) :: rest, before, after =>
      ∃ middle target, (ReferenceCache.copy entry directory file).run before = (middle, .ok target) ∧
        Copies entry rest middle after

theorem distinct_of_copies (distinct : tree.Distinct) (copies : Copies entry plan tree after) : after.Distinct := by
  induction plan generalizing tree with
  | nil =>
      obtain rfl : after = tree := copies
      exact distinct
  | cons item rest ih =>
      obtain ⟨middle, target, copied, copies⟩ := copies
      exact ih (FileOp.distinct_run distinct copied) copies

/-- Whether a file of some content is in one of several directories, given by the final name of that directory and the
names that the file has in there. -/
def FoundFrom (tree : FileTree) (directories : List Path) (below : Location) (content : ByteArray) : Prop :=
  ∃ directory ∈ directories, ∃ name names, directory.fileName? = some name ∧ below = name :: names ∧
    ∃ executable, tree.entryAt? (tree.location directory ++ names) = some (.file content executable)

theorem FoundFrom.unique (differ : DifferInName directories) {below : Location} {content bytes : ByteArray}
    (found : FoundFrom tree directories below content) (again : FoundFrom tree directories below bytes) :
    content = bytes := by
  rcases found with ⟨directory, member, name, names, isFileName, rfl, executable, there⟩
  rcases again with ⟨other, otherMember, _, _, otherName, same, flag, is⟩
  cases same
  obtain rfl := differ directory member other otherMember name isFileName otherName
  rw [there] at is
  cases is
  rfl

/-- Whether a file of some content is among those to save. -/
def Planned (tree : FileTree) (directories : List Path) (plan : List (Text × SourceFile)) (below : Location)
    (content : ByteArray) : Prop :=
  ∃ directory ∈ directories, ∃ name names, directory.fileName? = some name ∧ below = name :: names ∧
    keepAs name directory names ∈ plan ∧
    ∃ executable, tree.entryAt? (tree.location directory ++ names) = some (.file content executable)

theorem holds_congr {place : Location} {saved other : Location → ByteArray → Prop}
    (same : ∀ below content, saved below content ↔ other below content) :
    Holds place saved tree ↔ Holds place other tree := by
  have equal : saved = other := funext fun below => funext fun content => propext (same below content)
  rw [equal]

/-- A file in the place of a directory is not copied. -/
theorem not_copy_of_nil (isName : Path.IsName name) {target : Path} :
    (ReferenceCache.copy entry name (keepAs name directory []).2).run before ≠ (after, .ok target) := by
  intro copied
  rcases ReferenceCache.copyFile_of_copy copied with ⟨made, copies⟩
  rcases FileOp.puts_of_copyFile copies with ⟨_, _, _, flag, -, canWrite, -⟩
  exact FileOp.not_writable_of_slash (ReferenceCache.getLast?_target isName) canWrite

/-- A file that is copied from one of the directories is held from then on. -/
theorem holds_of_copy_from (ends : Path.EndsInName entry) (apart : ApartFrom tree place directories)
    (member : directory ∈ directories) (isFileName : directory.fileName? = some name)
    (areNames : ∀ name ∈ names, Path.IsName name) (nonempty : names ≠ [])
    (function : ∀ content other executable, saved (name :: names) content →
      tree.entryAt? (tree.location directory ++ names) = some (.file other executable) → content = other)
    (within : ChangesWithin place tree before) (holds : Holds place saved before)
    (found : before.find entry = .ok (place, .directory)) {target : Path}
    (copied : (ReferenceCache.copy entry name (keepAs name directory names).2).run before = (after, .ok target)) :
    ∃ content executable, tree.entryAt? (tree.location directory ++ names) = some (.file content executable) ∧
      ChangesWithin place tree after ∧ after.find entry = .ok (place, .directory) ∧
      Holds place (fun below bytes => saved below bytes ∨ below = name :: names ∧ bytes = content) after := by
  have isName := Path.isName_of_fileName? isFileName
  have allNames := List.forall_mem_cons.2 ⟨isName, areNames⟩
  have sourcePlace : before.location (keepAs name directory names).2.source = tree.location directory ++ names := by
    rw [within.location, ← location_descend tree _ areNames]
    rfl
  have elsewhere := apart.not_prefix member isFileName names
  have sourceSame := within.elsewhere _ elsewhere
  obtain ⟨first, rest, rfl⟩ := List.exists_cons_of_ne_nil nonempty
  obtain ⟨front, last, split⟩ : ∃ front last, first :: rest = front ++ [last] :=
    ⟨_, _, (List.dropLast_append_getLast nonempty).symm⟩
  have whole : name :: first :: rest = (name :: front) ++ [last] := by rw [split]; rfl
  have isTarget := @ReferenceCache.target_eq entry (directory.descend (first :: rest)) name first rest isName
    (areNames first List.mem_cons_self) fun other member => areNames other (List.mem_cons_of_mem _ member)
  obtain ⟨content, executable, leads, -, changed, foundAfter, holdsAfter⟩ :=
    ReferenceCache.holds_of_copy ends (whole ▸ allNames) (whole ▸ isTarget) (List.cons_ne_nil name front) holds found
      ((apart.of_changesWithin within).avoids_descend member isFileName areNames)
      (by rw [sourcePlace]; exact elsewhere)
      (by
        intro bytes other flag isSaved isSource
        rw [sourcePlace, sourceSame] at isSource
        exact function bytes other flag (whole ▸ isSaved) isSource)
      copied
  obtain ⟨-, -, -, -, -, -, -, -, -, -, -, there⟩ := find_eq_file_iff.1 leads
  rw [sourcePlace, sourceSame] at there
  exact ⟨content, executable, there, within.trans changed, foundAfter, whole ▸ holdsAfter⟩

/-- After files were copied the entry holds them too. -/
theorem holds_of_copies_from (formed : tree.WellFormed) (ends : Path.EndsInName entry)
    (apart : ApartFrom tree place directories) (differ : DifferInName directories)
    (planned : ∀ item ∈ plan, ∃ directory ∈ directories, ∃ name names, directory.fileName? = some name ∧
      item = keepAs name directory names ∧ ∀ name ∈ names, Path.IsName name)
    (known : ∀ below content, saved below content → FoundFrom tree directories below content)
    (within : ChangesWithin place tree before) (holds : Holds place saved before)
    (found : before.find entry = .ok (place, .directory)) (copies : Copies entry plan before after) :
    ChangesWithin place tree after ∧ after.find entry = .ok (place, .directory) ∧
      Holds place (fun below bytes => saved below bytes ∨ Planned tree directories plan below bytes) after := by
  induction plan generalizing saved before with
  | nil =>
      obtain rfl : after = before := copies
      refine ⟨within, found, (holds_congr fun below bytes => ?_).1 holds⟩
      simp [Planned]
  | cons item rest ih =>
      rcases planned item List.mem_cons_self with ⟨directory, member, name, names, isFileName, rfl, areNames⟩
      rcases copies with ⟨middle, target, copied, copies⟩
      by_cases nonempty : names = []
      · rw [nonempty] at copied
        exact absurd copied (not_copy_of_nil (Path.isName_of_fileName? isFileName))
      rcases holds_of_copy_from ends apart member isFileName areNames nonempty
        (fun content other executable isSaved there =>
          (known _ content isSaved).unique differ ⟨directory, member, name, names, isFileName, rfl, executable, there⟩)
        within holds found copied with ⟨content, executable, there, changed, foundMiddle, holdsMiddle⟩
      have isFound : FoundFrom tree directories (name :: names) content :=
        ⟨directory, member, name, names, isFileName, rfl, executable, there⟩
      rcases ih (fun item member => planned item (List.mem_cons_of_mem _ member))
        (by
          rintro below bytes (old | ⟨rfl, rfl⟩)
          · exact known below bytes old
          · exact isFound)
        changed holdsMiddle foundMiddle copies with ⟨changed, foundAfter, holdsAfter⟩
      refine ⟨changed, foundAfter, (holds_congr fun below bytes => ?_).1 holdsAfter⟩
      rw [or_assoc]
      apply or_congr_right
      constructor
      · rintro (⟨rfl, rfl⟩ | ⟨other, otherMember, otherName, others, isName, rfl, inRest, is⟩)
        · exact ⟨directory, member, name, names, isFileName, rfl, List.mem_cons_self, executable, there⟩
        · exact ⟨other, otherMember, otherName, others, isName, rfl, List.mem_cons_of_mem _ inRest, is⟩
      · rintro ⟨other, otherMember, otherName, others, isName, rfl, inPlan, flag, is⟩
        rcases List.mem_cons.1 inPlan with same | inRest
        · obtain ⟨rfl, file⟩ := Prod.mk.inj same
          obtain rfl := differ directory member other otherMember otherName isFileName isName
          have source := congrArg tree.location (SourceFile.mk.inj file).1
          have otherNames : ∀ name ∈ others, Path.IsName name := fun name inNames =>
            formed.names is name (List.mem_append_right _ inNames)
          rw [location_descend tree _ otherNames, location_descend tree _ areNames] at source
          obtain rfl := List.append_cancel_left source
          rw [there] at is
          cases is
          exact .inl ⟨rfl, rfl⟩
        · exact .inr ⟨other, otherMember, otherName, others, isName, rfl, inRest, flag, is⟩

/-- In the names of what is copied there is at least one. -/
theorem keepAs_nil_not_mem_of_copies (copies : Copies entry plan before after) (isName : Path.IsName name) :
    keepAs name directory [] ∉ plan := by
  induction plan generalizing before with
  | nil => exact List.not_mem_nil
  | cons item rest ih =>
      rcases copies with ⟨middle, target, copied, copies⟩
      rw [List.mem_cons, not_or]
      refine ⟨?_, ih copies⟩
      rintro rfl
      exact not_copy_of_nil isName copied

/-- What is planned is what is kept, if there is no file in the place of a directory. -/
theorem planned_savePlan_iff (formed : tree.WellFormed) (differ : DifferInName directories)
    (noFile : ∀ name directory, Path.IsName name → keepAs name directory [] ∉ AddonWork.savePlan directories tree)
    {below : Location} {content : ByteArray} :
    Planned tree directories (AddonWork.savePlan directories tree) below content ↔
      KeptFrom tree directories below content := by
  constructor
  · rintro ⟨directory, member, name, names, isFileName, rfl, inPlan, executable, there⟩
    refine ⟨directory, member, name, names, isFileName, rfl, ?_⟩
    rcases exists_of_mem_savePlan formed inPlan with ⟨other, otherMember, otherName, others, isName, same, has⟩
    obtain ⟨rfl, file⟩ := Prod.mk.inj same
    obtain rfl := differ directory member other otherMember name isFileName isName
    rcases has with ⟨rfl, -⟩ | ⟨bytes, has⟩
    · rw [same] at inPlan
      exact absurd inPlan (noFile name directory (Path.isName_of_fileName? isFileName))
    have source := congrArg tree.location (SourceFile.mk.inj file).1
    have areNames : ∀ name ∈ names, Path.IsName name := fun name inNames =>
      formed.names there name (List.mem_append_right _ inNames)
    rw [location_descend tree _ areNames, location_descend tree _ (has.areNames formed)] at source
    obtain rfl := List.append_cancel_left source
    exact ⟨has.1, has.2.1, executable, there⟩
  · rintro ⟨directory, member, name, names, isFileName, rfl, has⟩
    have there := has.2.2
    exact ⟨directory, member, name, names, isFileName, rfl, has.mem_savePlan formed member isFileName, there⟩

/-! ## Saving -/

/-- Whether the files of an addon are saved with success: its entry is prepared, the files are
copied, and the entry is marked as complete. -/
def Saves (cache : ReferenceCache) (addon : Text) (directories : List Path)
    (before after : FileTree) : Prop :=
  ∃ prepared stored, (cache.prepare addon).run before = (prepared, .ok (cache.entry addon)) ∧
    Copies (cache.entry addon) (AddonWork.savePlan directories prepared) prepared stored ∧
    (ReferenceCache.markValid (cache.entry addon)).run stored = (after, .ok ())

/-- Whether there is a place for the entry of an addon: below the root of the cache, which is there and to which no way
leads through the entry. -/
structure HasPlace (cache : ReferenceCache) (addon : Text) (tree : FileTree) : Prop where
  isName : Path.IsName addon
  rooted : tree.isDirectory cache.root = true
  there : tree.entryAt? (tree.location cache.root) = some .directory
  avoids : tree.Avoids cache.root (cache.entryPlace addon tree)

theorem HasPlace.wellFormed_of_holds (hasPlace : HasPlace cache addon tree) (formed : tree.WellFormed)
    (distinct : after.Distinct) (within : ChangesWithin (cache.entryPlace addon tree) tree after)
    (holds : Holds (cache.entryPlace addon tree) saved after)
    (areNames : ∀ below content, saved below content → ∀ name ∈ below, Path.IsName name) : after.WellFormed := by
  have place : cache.entryPlace addon tree = tree.location cache.root ++ [addon] := by
    rw [ReferenceCache.entryPlace, ReferenceCache.entry_eq, location_join_name _ hasPlace.isName]
  rw [place] at within holds
  exact holds.wellFormed formed distinct hasPlace.isName hasPlace.there within areNames

theorem KeptFrom.areNames (formed : tree.WellFormed) {below : Location} {content : ByteArray}
    (kept : KeptFrom tree directories below content) : below ≠ [markerName] ∧ ∀ name ∈ below, Path.IsName name := by
  rcases kept with ⟨directory, member, name, names, isFileName, rfl, has⟩
  refine ⟨fun same => has.names_ne_nil (List.cons.inj same).2, ?_⟩
  exact List.forall_mem_cons.2 ⟨Path.isName_of_fileName? isFileName, has.areNames formed⟩

/-- After the files of an addon were saved its entry holds what was to be kept. -/
theorem holds_keptFrom_of_saves (formed : tree.WellFormed) (hasPlace : HasPlace cache addon tree)
    (apart : ApartFrom tree (cache.entryPlace addon tree) directories) (differ : DifferInName directories)
    (saves : Saves cache addon directories tree after) :
    ChangesWithin (cache.entryPlace addon tree) tree after ∧ after.WellFormed ∧
      after.find (cache.entry addon) = .ok (cache.entryPlace addon tree, .directory) ∧
      (∃ executable, after.entryAt? (cache.markerPlace addon tree) =
        some (.file (markerText true).encode executable)) ∧
      Holds (cache.entryPlace addon tree) (KeptFrom tree directories) after := by
  obtain ⟨prepared, stored, preparing, copies, marking⟩ := saves
  obtain ⟨-, within, found, holds⟩ :=
    ReferenceCache.holds_of_prepare formed hasPlace.isName hasPlace.rooted hasPlace.avoids preparing
  have formedPrepared := hasPlace.wellFormed_of_holds formed (FileOp.distinct_run formed.distinct preparing)
    within holds fun _ _ impossible => impossible.elim
  have apartPrepared := apart.of_changesWithin within
  have planned : ∀ item ∈ AddonWork.savePlan directories prepared, ∃ directory ∈ directories, ∃ name names,
      directory.fileName? = some name ∧ item = keepAs name directory names ∧ ∀ name ∈ names, Path.IsName name := by
    intro item member
    rcases exists_of_mem_savePlan formedPrepared member with ⟨directory, inDirectories, name, names, isFileName, rfl, has⟩
    refine ⟨directory, inDirectories, name, names, isFileName, rfl, ?_⟩
    rcases has with ⟨rfl, -⟩ | ⟨content, has⟩
    · exact List.forall_mem_nil _
    · exact has.areNames formedPrepared
  obtain ⟨copied, foundStored, holdsStored⟩ := holds_of_copies_from formedPrepared
    (Path.endsInName_join _ hasPlace.isName) apartPrepared differ planned (fun _ _ impossible => impossible.elim)
    (.refl _ _) holds found copies
  have kept : ∀ below content, False ∨ Planned prepared directories
      (AddonWork.savePlan directories prepared) below content ↔ KeptFrom tree directories below content := by
    intro below content
    rw [false_or, planned_savePlan_iff formedPrepared differ fun _ _ => keepAs_nil_not_mem_of_copies copies]
    unfold KeptFrom
    apply exists_congr fun directory => and_congr_right fun member => exists_congr fun name => exists_congr fun names =>
      and_congr_right fun isFileName => and_congr_right fun _ => ?_
    exact apart.hasToKeep_iff within member isFileName
  have holdsStored := (holds_congr kept).1 holdsStored
  obtain ⟨marked, foundAfter, isMarker, holdsAfter⟩ := ReferenceCache.holds_of_markValid holdsStored
    (fun content isKept => (isKept.areNames formed).1 rfl) foundStored marking
  have whole := (within.trans copied).trans marked
  -- Nothing but these operations comes between the two trees.
  have distinct : after.Distinct := FileOp.distinct_run (distinct_of_copies formedPrepared.distinct copies) marking
  exact ⟨whole, hasPlace.wellFormed_of_holds formed distinct whole holdsAfter
    fun below content isKept => (isKept.areNames formed).2, foundAfter, isMarker, holdsAfter⟩

end AddonIndex.Indexing
