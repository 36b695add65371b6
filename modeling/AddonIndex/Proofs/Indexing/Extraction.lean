import AddonIndex.Proofs.Indexing.Obtained

/-!
# Archives that are extracted side by side

An extractor that writes nothing but what is below its directory, and makes the
directories on the way to it, leaves archives of different stems side by side,
apart from the entry.
-/

namespace AddonIndex.Indexing

open Activity FileTree Reference

variable {work : AddonWork} {before after : Scene} {deeds : List Deed}

/-- Whether a tree differs from an earlier one only below a place and in new directories on the way to it. -/
structure ExtendsBelow (target : Location) (before after : FileTree) : Prop where
  formed : after.WellFormed
  workingDirectory : after.workingDirectory = before.workingDirectory
  entryAt? : ∀ place, after.entryAt? place = before.entryAt? place ∨ (target <+: place ∧ place ≠ target) ∨
    (place <+: target ∧ before.entryAt? place = none ∧ after.entryAt? place = some .directory)

/-- Whether an extractor changes nothing but what is below its directory, and makes no more than the
directories on the way to it. -/
def ExtractsBelow (tools : ArchiveTools) : Prop :=
  ∀ archive directory limit tree, tree.WellFormed →
    ExtendsBelow (tree.location directory) tree (tools.extract archive directory limit tree).tree

theorem ExtendsBelow.refl {tree : FileTree} (formed : tree.WellFormed) (target : Location) :
    ExtendsBelow target tree tree :=
  ⟨formed, rfl, fun _ => .inl rfl⟩

theorem ExtendsBelow.trans {target : Location} {first second third : FileTree}
    (left : ExtendsBelow target first second) (right : ExtendsBelow target second third) :
    ExtendsBelow target first third where
  formed := right.formed
  workingDirectory := right.workingDirectory.trans left.workingDirectory
  entryAt? place := by
    rcases right.entryAt? place with same | below | ⟨above, missing, made⟩
    · rw [same]
      exact left.entryAt? place
    · exact .inr (.inl below)
    · rcases left.entryAt? place with same | below | ⟨-, -, made⟩
      · exact .inr (.inr ⟨above, same ▸ missing, made⟩)
      · exact .inr (.inl below)
      · rw [made] at missing
        cases missing

/-- Whether the archives of an addon can be extracted side by side: nothing is there yet, and the
archives have different stems that are names. -/
structure Extractable (work : AddonWork) (temp : Text) (tree : FileTree) : Prop where
  formed : tree.WellFormed
  separate : Separate work.cache temp work.addon.name tree
  fresh : tree.entryAt? (tree.location (work.extractedAt temp)) = none
  stems : ∀ container archives, archiveContainer? work.addon.directory tree = .ok (some container) →
    Indexing.archives container tree = .ok archives →
      (archives.map Path.fileStem?).Nodup ∧
        ∀ archive ∈ archives, ∃ stem, archive.fileStem? = some stem ∧ Path.IsName stem

/-- Whether a tree is one to which archives were extracted side by side. -/
structure Within (work : AddonWork) (temp : Text) (tree next : FileTree) : Prop where
  formed : next.WellFormed
  workingDirectory : next.workingDirectory = tree.workingDirectory
  elsewhere : ∀ place, ¬ tree.location work.cache.root ++ [temp] <+: place →
    next.entryAt? place = tree.entryAt? place
  noFile : ∀ stem content executable,
    next.entryAt? (tree.location (work.extractedAt temp) ++ [stem]) ≠ some (.file content executable)

variable {temp : Text} {tree next : FileTree}

theorem Extractable.within (extractable : Extractable work temp tree) : Within work temp tree tree where
  formed := extractable.formed
  workingDirectory := rfl
  elsewhere _ _ := rfl
  noFile stem content executable there := by
    have above := extractable.formed.above there (List.cons_ne_nil _ _)
    rw [extractable.fresh] at above
    cases above

theorem Within.location (within : Within work temp tree next) (path : Path) :
    next.location path = tree.location path :=
  location_congr within.workingDirectory path

/-- One more archive can be extracted beside the others. -/
theorem Within.extract (separate : Separate work.cache temp work.addon.name tree)
    (extractsBelow : ExtractsBelow work.environment.tools) (within : Within work temp tree next)
    {stem : Text} (isName : Path.IsName stem) (archive : Path) (limit : Duration) :
    Within work temp tree (work.environment.tools.extract archive
      ((work.extractedAt temp).join stem) limit next).tree := by
  obtain ⟨formed, workingDirectory, changes⟩ := extractsBelow archive ((work.extractedAt temp).join stem)
    limit next within.formed
  rw [within.location, location_join_name _ isName] at changes
  have target : tree.location (work.extractedAt temp) ++ [stem] =
      tree.location work.cache.root ++ [temp] ++ [work.addon.name, stem] := by
    rw [separate.location_eq]
    simp
  refine ⟨formed, workingDirectory.trans within.workingDirectory, fun place outside => ?_,
    fun other content executable there => ?_⟩
  · rw [← within.elsewhere place outside]
    rcases changes place with same | ⟨below, -⟩ | ⟨above, missing, -⟩
    · exact same
    · rw [target] at below
      exact absurd ((List.prefix_append _ _).trans below) outside
    · -- What is on the way but not below the temporary directory is there already.
      rw [target] at above
      have toTemp := (List.prefix_or_prefix_of_prefix above (List.prefix_append _ _)).resolve_right outside
      have notTemp : place ≠ tree.location work.cache.root ++ [temp] := by
        rintro rfl
        exact outside (List.prefix_refl _)
      obtain ⟨rest, toRoot⟩ := (List.prefix_concat_iff.1 toTemp).resolve_left notTemp
      have root : next.entryAt? (place ++ rest) = some .directory := by
        rw [toRoot, within.elsewhere _ fun isPrefix => ?_, separate.there]
        have length := isPrefix.length_le
        rw [List.length_append, List.length_singleton] at length
        omega
      by_cases here : rest = []
      · rw [here, List.append_nil, missing] at root
        cases root
      · rw [within.formed.above root here] at missing
        cases missing
  · rcases changes (tree.location (work.extractedAt temp) ++ [other]) with
      same | ⟨below, differs⟩ | ⟨-, -, made⟩
    · rw [same] at there
      exact within.noFile other content executable there
    · exact differs (below.eq_of_length (by simp)).symm
    · rw [made] at there
      cases there

namespace AddonWork

/-- Extractions change the files and the list of directories, and nothing else. -/
theorem scene_of_extractions {destination : Path}
    (along : Along (work.extractionDuty destination) deeds before after) :
    after.configs = before.configs ∧ after.extracted =
      before.extracted ++ (deeds.filterMap Deed.noted?).map (extractionDirectory destination) := by
  induction deeds generalizing before with
  | nil =>
      obtain rfl : after = before := along
      simp
  | cons deed rest ih =>
      obtain ⟨middle, acts, later⟩ := along
      obtain ⟨configs, extracted⟩ := ih later
      rw [configs, extracted]
      cases deed with
      | called file succeeded =>
          obtain ⟨-, rfl⟩ := acts
          exact ⟨rfl, rfl⟩
      | noted file =>
          obtain rfl : middle = _ := acts
          exact ⟨rfl, by simp [extractionDuty, Deed.noted?]⟩
      | complained =>
          obtain rfl : middle = _ := acts
          exact ⟨rfl, rfl⟩

/-- Archives whose stems are names are extracted below the directory of the addon. -/
theorem within_of_extractions (separate : Separate work.cache temp work.addon.name tree)
    (extractsBelow : ExtractsBelow work.environment.tools)
    (stems : ∀ archive succeeded, .called archive succeeded ∈ deeds →
      ∃ stem, archive.fileStem? = some stem ∧ Path.IsName stem)
    (along : Along (work.extractionDuty (work.extractedAt temp)) deeds before after)
    (within : Within work temp tree before.tree) : Within work temp tree after.tree := by
  induction deeds generalizing before with
  | nil =>
      obtain rfl : after = before := along
      exact within
  | cons deed rest ih =>
      obtain ⟨middle, acts, later⟩ := along
      refine ih (fun archive succeeded called => stems archive succeeded (List.mem_cons_of_mem _ called))
        later ?_
      cases deed with
      | called archive succeeded =>
          obtain ⟨-, rfl⟩ := acts
          obtain ⟨stem, isStem, isName⟩ := stems archive succeeded List.mem_cons_self
          have extracted := within.extract separate extractsBelow isName archive
            work.environment.settings.extractTimeout
          rw [show (work.extractedAt temp).join stem = extractionDirectory (work.extractedAt temp) archive by
            rw [extractionDirectory, isStem, Option.getD_some]] at extracted
          exact extracted
      | noted archive =>
          obtain rfl : middle = _ := acts
          exact within
      | complained =>
          obtain rfl : middle = _ := acts
          exact within

/-- Directories below that of the addon are laid out in a tree to which archives were extracted. -/
theorem laidOut_of_within (separate : Separate work.cache temp work.addon.name tree) (within : Within work temp tree next)
    {directories : List Path}
    (named : ∀ directory ∈ directories, ∃ stem, Path.IsName stem ∧ directory = (work.extractedAt temp).join stem) :
    LaidOut work temp directories next := by
  refine ⟨within.formed, separate.of_elsewhere within.workingDirectory within.elsewhere, named,
    fun directory member => ?_⟩
  obtain ⟨stem, isName, rfl⟩ := named directory member
  rw [Bool.eq_false_iff]
  intro isFile
  obtain ⟨place, content, executable, found⟩ := isFile_iff.1 isFile
  obtain ⟨-, -, -, -, -, -, -, -, -, -, -, there⟩ := find_eq_file_iff.1 found
  rw [find_location found, within.location, location_join_name _ isName] at there
  exact within.noFile stem content executable there

/-- Archives of different stems have different directories. -/
theorem nodup_extractionDirectories {files : List Path} {destination : Path}
    (stemsDiffer : (files.map Path.fileStem?).Nodup)
    (areStems : ∀ archive ∈ files, ∃ stem, archive.fileStem? = some stem ∧ Path.IsName stem) :
    (files.map (extractionDirectory destination)).Nodup := by
  refine List.Nodup.map_on (fun first inFirst second inSecond same => ?_) (List.Nodup.of_map _ stemsDiffer)
  obtain ⟨stem, isStem, isName⟩ := areStems first inFirst
  obtain ⟨other, isOther, otherIsName⟩ := areStems second inSecond
  rw [extractionDirectory, extractionDirectory, isStem, isOther, Option.getD_some, Option.getD_some] at same
  have names := congrArg Path.fileName? same
  rw [Path.fileName?_join _ isName, Path.fileName?_join _ otherIsName] at names
  exact List.inj_on_of_nodup_map stemsDiffer inFirst inSecond (by rw [isStem, isOther, names])

theorem named_extractionDirectories {files directories : List Path} {destination : Path}
    (areStems : ∀ archive ∈ files, ∃ stem, archive.fileStem? = some stem ∧ Path.IsName stem)
    (perm : directories.Perm (files.map (extractionDirectory destination))) :
    ∀ directory ∈ directories, ∃ stem, Path.IsName stem ∧ directory = destination.join stem := by
  intro directory member
  obtain ⟨archive, isArchive, rfl⟩ := List.mem_map.1 (perm.mem_iff.1 member)
  obtain ⟨stem, isStem, isName⟩ := areStems archive isArchive
  exact ⟨stem, isName, by rw [extractionDirectory, isStem, Option.getD_some]⟩

/-- Archives that are extracted without an error are side by side, each once. -/
theorem Extracts.laidOut (extracts : work.Extracts (work.cache.root.join temp) before after)
    (extractsBelow : ExtractsBelow work.environment.tools) (extractable : Extractable work temp before.tree)
    (nothing : before.extracted = []) (noError : after.errors ≤ before.errors) :
    LaidOut work temp after.extracted after.tree ∧ after.extracted.Nodup ∧
      after.configs = before.configs := by
  obtain ⟨container, files, isContainer, areArchives, shared⟩ := extracts
  obtain ⟨stemsDiffer, areStems⟩ := extractable.stems container files isContainer areArchives
  obtain ⟨deeds, perm, along⟩ := shared.succeeded (fun _ _ => rfl)
    (fun _ => by simp [extractionHabit]) noError
  have along : Along (work.extractionDuty (work.extractedAt temp)) deeds before after := along
  obtain ⟨configs, extracted⟩ := scene_of_extractions along
  have noted := noted_perm (fun _ => rfl) perm
  have areCalled : ∀ archive succeeded, .called archive succeeded ∈ deeds → archive ∈ files := by
    intro archive succeeded called
    obtain ⟨file, member, isDeed⟩ := List.mem_flatMap.1 (perm.mem_iff.1 called)
    simp only [extractionHabit, List.mem_cons, reduceCtorEq, Deed.called.injEq, List.not_mem_nil, or_false,
      false_or] at isDeed
    rwa [isDeed.1]
  have within := within_of_extractions extractable.separate extractsBelow
    (fun archive succeeded called => areStems archive (areCalled archive succeeded called)) along
    extractable.within
  have directories : after.extracted.Perm (files.map (extractionDirectory (work.extractedAt temp))) := by
    rw [extracted, nothing, List.nil_append]
    exact noted.map _
  exact ⟨laidOut_of_within extractable.separate within (named_extractionDirectories areStems directories),
    directories.nodup_iff.2 (nodup_extractionDirectories stemsDiffer areStems), configs⟩

end AddonWork

end AddonIndex.Indexing
