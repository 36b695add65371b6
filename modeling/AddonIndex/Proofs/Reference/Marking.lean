import AddonIndex.Proofs.FileTree.Failure
import AddonIndex.Proofs.Reference.Interruption

/-!
# Entries that are marked as complete

A preparation leaves no marker that tells that the entry is complete, whether it
succeeds or fails. What is copied into the entry afterwards, and what of it
fails, leaves the marker alone. So the entry is marked as complete only by the
operation that does so, which cannot fail then.
-/

namespace AddonIndex

namespace FileTree

variable {place : Location} {before middle after tree : FileTree} {path : Path}

/-- Whether all directories of a tree and what it has at a place are still there. -/
structure KeepsAt (place : Location) (before after : FileTree) : Prop where
  workingDirectory : after.workingDirectory = before.workingDirectory
  directories : ∀ other, before.entryAt? other = some .directory → after.entryAt? other = some .directory
  here : ∀ entry, before.entryAt? place = some entry → after.entryAt? place = some entry

namespace KeepsAt

theorem refl (tree : FileTree) : KeepsAt place tree tree := ⟨rfl, fun _ there => there, fun _ there => there⟩

theorem trans (first : KeepsAt place before middle) (second : KeepsAt place middle after) :
    KeepsAt place before after where
  workingDirectory := second.workingDirectory.trans first.workingDirectory
  directories other there := second.directories other (first.directories other there)
  here entry there := second.here entry (first.here entry there)

theorem of_grows {allowed : Location → Prop} (grows : Grows allowed before after) :
    KeepsAt place before after where
  workingDirectory := grows.workingDirectory
  directories _ := grows.entryAt?_of_some
  here _ := grows.entryAt?_of_some

theorem location (keeps : KeepsAt place before after) (path : Path) :
    after.location path = before.location path :=
  location_congr keeps.workingDirectory path

/-- The file that is kept is found where it was. -/
theorem find (keeps : KeepsAt place before after) {content : ByteArray} {executable : Bool}
    (found : before.find path = .ok (place, .file content executable)) :
    after.find path = .ok (place, .file content executable) := by
  obtain ⟨-, -, -, -, -, -, -, -, -, -, -, there⟩ := find_eq_file_iff.1 found
  exact find_of_directories keeps.workingDirectory keeps.directories found
    ((keeps.here _ there).trans there.symm)

end KeepsAt

end FileTree

namespace ReferenceCache

open FileOp FileTree Reference

variable {cache : ReferenceCache} {addon : Text} {tree after : FileTree}

/-- Whether the marker of an entry can be read and tells that the entry is complete. -/
def MarkedValid (cache : ReferenceCache) (addon : Text) (tree : FileTree) : Prop :=
  ∃ text, tree.readText ((cache.entry addon).join markerName) = .ok text ∧
    validFlag? text = some true

/-- Whether the marker of an entry is the one that is written to tell whether the entry is
complete. -/
def HasMarker (cache : ReferenceCache) (addon : Text) (valid : Bool) (tree : FileTree) : Prop :=
  ∃ executable, tree.find ((cache.entry addon).join markerName) =
    .ok (cache.markerPlace addon tree, .file (markerText valid).encode executable)

theorem location_marker (cache : ReferenceCache) (addon : Text) (tree : FileTree) :
    tree.location ((cache.entry addon).join markerName) = cache.markerPlace addon tree :=
  location_join_name _ isName_markerName

theorem HasMarker.markedValid_iff {valid : Bool} (hasMarker : cache.HasMarker addon valid tree) :
    cache.MarkedValid addon tree ↔ valid = true := by
  obtain ⟨executable, found⟩ := hasMarker
  have read : tree.readText ((cache.entry addon).join markerName) = .ok (markerText valid) :=
    readText_eq_ok_iff.2 ⟨_, _, _, found, Text.decode?_encode _⟩
  unfold MarkedValid
  rw [read]
  constructor
  · rintro ⟨text, same, flag⟩
    cases same
    cases valid with
    | true => rfl
    | false => exact absurd flag (by decide)
  · rintro rfl
    exact ⟨_, rfl, by decide⟩

/-- Where all directories and the marker are kept, the marker still tells the same. -/
theorem HasMarker.of_keepsAt {valid : Bool} (hasMarker : cache.HasMarker addon valid tree)
    (keeps : KeepsAt (cache.markerPlace addon tree) tree after) : cache.HasMarker addon valid after := by
  obtain ⟨executable, found⟩ := hasMarker
  refine ⟨executable, ?_⟩
  rw [markerPlace, entryPlace, keeps.location]
  exact keeps.find found

/-! ## Preparing -/

theorem hasMarker_of_writeMarker {valid : Bool}
    (written : (writeMarker (cache.entry addon) valid).run tree = (after, .ok ())) :
    cache.HasMarker addon valid after := by
  obtain ⟨executable, found⟩ := find_of_writeBytes written
  refine ⟨executable, ?_⟩
  rw [found, ← location_marker, find_location found]

/-- A preparation that succeeds leaves the marker of an entry that is not complete. -/
theorem hasMarker_of_prepare {entry : Path}
    (prepared : (cache.prepare addon).run tree = (after, .ok entry)) :
    entry = cache.entry addon ∧ cache.HasMarker addon false after := by
  unfold prepare at prepared
  obtain ⟨_, _, -, prepared⟩ := run_bind_eq_ok_iff.1 prepared
  obtain ⟨_, _, -, prepared⟩ := run_bind_eq_ok_iff.1 prepared
  obtain ⟨_, _, written, prepared⟩ := run_bind_eq_ok_iff.1 prepared
  rw [run_pure] at prepared
  cases prepared
  exact ⟨rfl, hasMarker_of_writeMarker written⟩

/-- Where an entry cannot be cleared no marker is found. -/
theorem not_find_of_clear_error {entry : Path} {cause : FileError}
    (failed : (clear entry).run tree = (after, .error cause)) {place : Location} {content : ByteArray}
    {executable : Bool} :
    after.find (entry.join markerName) ≠ .ok (place, .file content executable) := by
  intro marker
  obtain ⟨-, -, directory, walked, rfl, there⟩ := (find_join_name_iff isName_markerName).1 marker
  rw [run_eq, clear] at failed
  split at failed
  · rename_i isThere
    obtain ⟨place, found, isEntry⟩ := pathExists_iff.1 isThere
    obtain ⟨rfl, -⟩ := Prod.mk.inj failed
    cases found with
    | directory =>
        -- All that was in the entry is gone.
        have emptied := @entryAt?_below_removeTree tree entry place [markerName] isEntry (by simp)
        rw [run_eq] at emptied
        have same : directory = place := by
          rw [walk_eq_ok walked, find_location isEntry, ← location_applyAll (removeTree entry tree).1]
          rfl
        rw [same, emptied] at there
        cases there
    | file other flag =>
        -- A file is not removed, and nothing is found below it.
        have none : (removeTree entry tree).1 = [] := by
          unfold removeTree
          rw [bind_of_ok (show (inspect (fun tree : FileTree => tree.find entry) tree).2 = _ from isEntry)]
          rfl
        rw [none, applyAll_nil] at walked
        obtain ⟨passable, -⟩ := find_eq_file_iff.1 isEntry
        have isDirectory := find_eq_directory_iff.2 ⟨passable, walked⟩
        rw [isEntry] at isDirectory
        cases isDirectory
  · cases failed

/-- A preparation that fails leaves no marker that tells that the entry is complete. -/
theorem not_markedValid_of_prepare_error {cause : FileError}
    (failed : (cache.prepare addon).run tree = (after, .error cause)) :
    ¬ cache.MarkedValid addon after := by
  rintro ⟨text, read, -⟩
  obtain ⟨place, content, executable, marker, -⟩ := readText_eq_ok_iff.1 read
  unfold prepare at failed
  rcases run_bind_eq_error_iff.1 failed with clearing | ⟨_, cleared, -, failed⟩
  · exact not_find_of_clear_error clearing marker
  · rcases run_bind_eq_error_iff.1 failed with making | ⟨_, made, -, failed⟩
    · have there := isDirectory_of_find_join isName_markerName
        (text_ne_nil_of_makeDirectories_error making) marker
      rw [isDirectory_of_makeDirectories_error making] at there
      cases there
    · rcases run_bind_eq_error_iff.1 failed with writing | ⟨_, _, -, answered⟩
      · exact not_find_of_writeBytes_error writing marker
      · cases answered

/-! ## Completing -/

/-- To fail to complete a marker changes nothing. -/
theorem eq_of_markValid_error {entry : Path} {cause : FileError}
    (failed : (markValid entry).run tree = (after, .error cause)) : after = tree := by
  unfold markValid writeMarker FileOp.writeText at failed
  rw [FileOp.run_eq, FileOp.writeBytes_eq] at failed
  split at failed
  · exact (Prod.mk.inj failed).1.symm
  · cases (Prod.mk.inj failed).2

/-- A marker that is there can be completed. -/
theorem exists_of_markValid {valid : Bool} (hasMarker : cache.HasMarker addon valid tree) :
    ∃ after, (markValid (cache.entry addon)).run tree = (after, .ok ()) ∧ cache.HasMarker addon true after := by
  obtain ⟨executable, found⟩ := hasMarker
  cases marked : (markValid (cache.entry addon)).run tree with
  | mk after answer =>
      cases answer with
      | ok done => exact ⟨after, rfl, hasMarker_of_writeMarker marked⟩
      | error cause =>
          rw [eq_of_markValid_error marked] at marked
          exact absurd found (FileOp.not_find_of_writeBytes_error marked)

/-! ## Copying -/

/-- A copy keeps what is at a place if the writing of its target does. -/
theorem keepsAt_copy_of_copyFile {entry : Path} {directory : Text} {file : SourceFile} {place : Location}
    (keeps : ∀ made : FileTree, made.workingDirectory = tree.workingDirectory →
      KeepsAt place made ((copyFile file.source (target entry directory file)).run made).1) :
    KeepsAt place tree ((copy entry directory file).run tree).1 := by
  have trans : ∀ a b c : FileTree,
      (a.workingDirectory = tree.workingDirectory → KeepsAt place a b) →
      (b.workingDirectory = tree.workingDirectory → KeepsAt place b c) →
      a.workingDirectory = tree.workingDirectory → KeepsAt place a c := by
    intro a b c first second start
    have keeps := first start
    exact keeps.trans (second (keeps.workingDirectory.trans start))
  have makes : ∀ path, Leads
      (fun before after => before.workingDirectory = tree.workingDirectory → KeepsAt place before after)
      (makeDirectories path) :=
    fun path tree _ => .of_grows (leads_makeDirectories path tree)
  have copies : Leads
      (fun before after => before.workingDirectory = tree.workingDirectory → KeepsAt place before after)
      (copyFile file.source (target entry directory file)) :=
    fun made start => keeps made start
  have answers : ∀ reached : Path, Leads
      (fun before after => before.workingDirectory = tree.workingDirectory → KeepsAt place before after)
      (pure reached : FileOp Path) :=
    fun _ tree _ => .refl tree
  have rest := copies.bind trans fun _ => answers (target entry directory file)
  have whole : Leads
      (fun before after => before.workingDirectory = tree.workingDirectory → KeepsAt place before after)
      (copy entry directory file) := by
    unfold copy
    cases isParent : (target entry directory file).parent? with
    | none =>
        simp only [isParent]
        exact rest
    | some parent =>
        simp only [isParent]
        exact (makes parent).bind trans fun _ => rest
  exact whole tree rfl

/-- A copy whose target is elsewhere keeps what is at a place. -/
theorem keepsAt_copy {entry : Path} {directory : Text} {file : SourceFile} {place : Location}
    (elsewhere : tree.location (target entry directory file) ≠ place) :
    KeepsAt place tree ((copy entry directory file).run tree).1 := by
  apply keepsAt_copy_of_copyFile
  intro made start
  rw [← location_congr start (target entry directory file)] at elsewhere
  rw [run_eq]
  refine ⟨workingDirectory_applyAll _ _, fun other there => ?_, fun entry there => ?_⟩
  · rw [entryAt?_applyAll_of_untouched fun change member touches => ?_, there]
    obtain ⟨same, noDirectory⟩ := location_of_mem_copyFile member
    rw [← same, touches] at noDirectory
    exact noDirectory there
  · rw [entryAt?_applyAll_of_untouched fun change member touches => ?_, there]
    exact elsewhere ((location_of_mem_copyFile member).1.symm.trans touches)

/-- Where a file is kept: below the directory of its archive, by the names that lead to it. -/
theorem location_target (tree : FileTree) (entry source : Path) {directory : Text} {names : List Text}
    (isDirectory : Path.IsName directory) (areNames : ∀ name ∈ names, Path.IsName name) :
    tree.location (target entry directory { source, relative := Text.joinWith ['/'] names }) =
      tree.location entry ++ directory :: names := by
  have below : tree.location (entry.join directory) = tree.location entry ++ [directory] :=
    location_join_name entry isDirectory
  cases names with
  | nil =>
      have relative : (Text.joinWith ['/'] []).head? ≠ some '/' := by simp [Text.joinWith]
      rw [← below, target, location, location, Path.written_join relative, start_join relative]
      simp [Text.joinWith]
  | cons name names =>
      have isName := areNames name List.mem_cons_self
      have others := fun other member => areNames other (List.mem_cons_of_mem name member)
      rw [target, Path.join_joinWith (Path.endsInName_join entry isDirectory) isName others,
        location_descend tree _ areNames, below]
      simp

/-! ## What there is to copy -/

/-- Whether the location of every file is made of names, or the file is a marker. -/
def NamesFiles (tree : FileTree) : Prop :=
  ∀ place content executable, (place, .file content executable) ∈ tree.entries →
    (∀ name ∈ place, Path.IsName name) ∨ ∃ front, place = front ++ [markerName]

/-- A preparation makes no file but the marker. -/
theorem namesFiles_of_prepare (formed : tree.WellFormed) {result : Except FileError Path}
    (prepared : (cache.prepare addon).run tree = (after, result)) : NamesFiles after := by
  rw [run_eq] at prepared
  obtain ⟨rfl, -⟩ := Prod.mk.inj prepared
  obtain ⟨erased, created, filled, made, erases, creates, fills, -⟩ :=
    @stopsAfter_prepare cache addon tree _ (List.prefix_refl _)
  intro place content executable listed
  rcases mem_entries_applyAll listed with old | ⟨change, member, rfl, leaves⟩
  · exact .inl (formed.named _ old)
  · rw [made, List.mem_append, List.mem_append] at member
    rcases member with inErased | inCreated | inFilled
    · obtain ⟨location, rfl⟩ := only_clear _ tree change (erases.subset inErased)
      cases leaves
    · obtain ⟨location, rfl⟩ := creates change inCreated
      cases leaves
    · rcases fills with rfl | ⟨-, flag, isPrefix⟩
      · cases inFilled
      · have isMarker := isPrefix.subset inFilled
        simp only [List.mem_cons, List.not_mem_nil, or_false] at isMarker
        rcases isMarker with rfl | rfl <;> exact .inr ⟨_, rfl⟩

/-- What is kept of an extraction directory with a file name are files with names that lead to
them, the last of which is that of no marker. -/
theorem exists_names_of_mem_referenceFiles (named : NamesFiles tree) {directory : Path} {name : Text}
    (isFileName : directory.fileName? = some name) {file : SourceFile}
    (member : file ∈ referenceFiles directory tree) :
    ∃ names, file.relative = Text.joinWith ['/'] names ∧ (∀ name ∈ names, Path.IsName name) ∧
      ∀ front, name :: names ≠ front ++ [markerName] := by
  have noMarker : isReferenceFile ⟨markerName⟩ = false := by decide
  obtain ⟨source, found, relative⟩ := List.mem_filterMap.1 member
  rw [findFiles, Path.sort, List.mem_mergeSort, List.mem_filter] at found
  obtain ⟨below, wanted⟩ := found
  -- The file is the directory itself, or it is below it.
  have leads : ∃ names, source = directory.descend names ∧ (∀ name ∈ names, Path.IsName name) ∧
      ∀ front, name :: names ≠ front ++ [markerName] := by
    unfold filesBelow at below
    split at below
    · cases below
    · obtain rfl := List.mem_singleton.1 below
      refine ⟨[], rfl, List.forall_mem_nil _, fun front same => ?_⟩
      rw [isFileName] at wanted
      obtain ⟨-, last⟩ := List.append_inj' (show [] ++ [name] = front ++ [markerName] from same) rfl
      cases last
      cases noMarker.symm.trans wanted
    · rename_i place isDirectory
      obtain ⟨⟨names, entry⟩, listed, same⟩ := List.mem_filterMap.1 below
      obtain ⟨nonempty, inEntries⟩ := mem_below_iff.1 listed
      cases entry with
      | directory => cases same
      | file content executable =>
          cases same
          obtain ⟨front, last, rfl⟩ := (List.eq_nil_or_concat names).resolve_left nonempty
          rw [List.concat_eq_append] at inEntries wanted ⊢
          rw [Path.descend_append, Path.descend_singleton] at wanted
          have notMarker : last ≠ markerName := by
            rintro rfl
            rw [Path.fileName?_join _ isName_markerName] at wanted
            cases noMarker.symm.trans wanted
          refine ⟨front ++ [last], rfl, fun other inNames => ?_, fun before same => ?_⟩
          · rcases named _ content executable inEntries with areNames | ⟨before, same⟩
            · exact areNames other (List.mem_append_right _ inNames)
            · rw [← List.append_assoc] at same
              obtain ⟨-, same⟩ := List.append_inj' same rfl
              exact absurd (List.singleton_inj.1 same) notMarker
          · rw [← List.cons_append] at same
            obtain ⟨-, same⟩ := List.append_inj' same rfl
            exact notMarker (List.singleton_inj.1 same)
  obtain ⟨names, rfl, areNames, notMarker⟩ := leads
  rw [Path.relativeTo?_descend_of_text (Path.text_ne_nil_of_fileName? isFileName) areNames] at relative
  cases relative
  exact ⟨names, rfl, areNames, notMarker⟩

/-- No file that is kept is kept in the place of the marker. -/
theorem location_target_ne_markerPlace (named : NamesFiles tree) {directory : Path} {name : Text}
    (isFileName : directory.fileName? = some name) {file : SourceFile}
    (member : file ∈ referenceFiles directory tree) (other : FileTree) :
    other.location (target (cache.entry addon) name file) ≠ cache.markerPlace addon other := by
  obtain ⟨names, relative, areNames, notMarker⟩ :=
    exists_names_of_mem_referenceFiles named isFileName member
  obtain ⟨source, _⟩ := file
  obtain rfl := relative
  rw [location_target other _ source (Path.isName_of_fileName? isFileName) areNames]
  intro same
  exact notMarker [] (List.append_cancel_left same)

end ReferenceCache

end AddonIndex
