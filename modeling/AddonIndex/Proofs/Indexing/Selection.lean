import AddonIndex.Proofs.Indexing.SavedEntry
import AddonIndex.Proofs.Path.Order

/-!
# Which files are kept

The archives of an addon are extracted to directories side by side. The scripts
and headers below these directories are saved to the entry, each at the same
place below it. The way to the entry and the ways to the extracted files keep
clear of each other, so that saving changes nothing that is still to be saved.
-/

namespace AddonIndex.Indexing

open FileTree Reference

/-- The directory below which the archives of an addon are extracted, if the directory for
extracted archives has the given name. -/
def extractionRoot (cache : ReferenceCache) (temp addon : Text) : Path :=
  (cache.root.join temp).join addon

/-- Whether the entry of an addon and its extracted archives have separate places, below the
root of the cache, which is there. -/
structure Separate (cache : ReferenceCache) (temp addon : Text) (tree : FileTree) : Prop where
  tempIsName : Path.IsName temp
  isName : Path.IsName addon
  differ : temp ≠ addon
  rooted : tree.isDirectory cache.root = true
  there : tree.entryAt? (tree.location cache.root) = some .directory
  /-- The path of the root does not lead through the entry or the extracted archives. -/
  avoids : tree.Avoids cache.root (cache.entryPlace addon tree)
  avoidsTemp : tree.Avoids cache.root (tree.location cache.root ++ [temp])

variable {cache : ReferenceCache} {temp addon : Text} {tree after : FileTree}

theorem endsInName_extractionRoot (cache : ReferenceCache) (temp : Text) (isName : Path.IsName addon) :
    Path.EndsInName (extractionRoot cache temp addon) :=
  Path.endsInName_join _ isName

namespace Separate

theorem endsInName (separate : Separate cache temp addon tree) :
    Path.EndsInName (extractionRoot cache temp addon) :=
  endsInName_extractionRoot cache temp separate.isName

theorem entryPlace_eq (separate : Separate cache temp addon tree) :
    cache.entryPlace addon tree = tree.location cache.root ++ [addon] := by
  rw [ReferenceCache.entryPlace, ReferenceCache.entry_eq, location_join_name _ separate.isName]

theorem location_eq (separate : Separate cache temp addon tree) :
    tree.location (extractionRoot cache temp addon) = tree.location cache.root ++ [temp, addon] := by
  rw [extractionRoot, location_join_name _ separate.isName, location_join_name _ separate.tempIsName]
  simp

theorem not_prefix_root (separate : Separate cache temp addon tree) :
    ¬ cache.entryPlace addon tree <+: tree.location cache.root := by
  intro isPrefix
  have length := isPrefix.length_le
  rw [separate.entryPlace_eq, List.length_append, List.length_singleton] at length
  omega

/-- What is extracted is not in the entry. -/
theorem not_prefix (separate : Separate cache temp addon tree) (below : Location) :
    ¬ cache.entryPlace addon tree <+: tree.location cache.root ++ temp :: below := by
  rw [separate.entryPlace_eq, List.prefix_append_right_inj, List.cons_prefix_cons]
  exact fun same => separate.differ same.1.symm

/-- The way to what is extracted does not lead through the entry. -/
theorem avoids_extracted (separate : Separate cache temp addon tree) {below : List Text}
    (areNames : ∀ name ∈ below, Path.IsName name) :
    tree.Avoids ((extractionRoot cache temp addon).descend below) (cache.entryPlace addon tree) := by
  have whole : (extractionRoot cache temp addon).descend below =
      cache.root.descend (temp :: addon :: below) := rfl
  rw [whole]
  refine separate.avoids.descend (List.forall_mem_cons.2 ⟨separate.tempIsName,
    List.forall_mem_cons.2 ⟨separate.isName, areNames⟩⟩) fun front nonempty isPrefix => ?_
  obtain ⟨rest, rfl, -⟩ := (List.prefix_cons_iff.1 isPrefix).resolve_left nonempty
  exact separate.not_prefix rest

/-- Changes within the entry keep it so. -/
theorem of_changesWithin (separate : Separate cache temp addon tree)
    (within : ChangesWithin (cache.entryPlace addon tree) tree after) :
    Separate cache temp addon after := by
  have place : cache.entryPlace addon after = cache.entryPlace addon tree := within.location _
  obtain ⟨root, rooted⟩ := isDirectory_iff.1 separate.rooted
  refine ⟨separate.tempIsName, separate.isName, separate.differ, ?_, ?_, ?_, ?_⟩
  · exact isDirectory_iff.2 ⟨root,
      (separate.avoids.find_iff within.workingDirectory within.elsewhere).2 rooted⟩
  · rw [within.location, within.elsewhere _ separate.not_prefix_root, separate.there]
  · rw [place]
    exact separate.avoids.start_congr within.workingDirectory
  · rw [within.location]
    exact separate.avoidsTemp.start_congr within.workingDirectory

end Separate

/-! ## Files in extraction directories -/

/-- Whether directories stand side by side below another one, each under a name, and none of
them is a file. -/
structure SideBySide (origin : Path) (directories : List Path) (tree : FileTree) : Prop where
  named : ∀ directory ∈ directories, ∃ stem, Path.IsName stem ∧ directory = origin.join stem
  noFile : ∀ directory ∈ directories, tree.isFile directory = false

/-- Whether a file is below one of several directories, at a location below their common one. -/
def Extracted (tree : FileTree) (origin : Path) (directories : List Path) (below : Location) : Prop :=
  ∃ stem names, below = stem :: names ∧ Path.IsName stem ∧ origin.join stem ∈ directories ∧
    tree.isDirectory (origin.join stem) = true ∧ names ∈ tree.filesAt (tree.location origin ++ [stem])

/-- Whether a file with some content is kept from one of several directories. -/
def Kept (tree : FileTree) (origin : Path) (directories : List Path) (below : Location)
    (content : ByteArray) : Prop :=
  Extracted tree origin directories below ∧
    below.getLast?.any (fun name => isReferenceFile ⟨name⟩) = true ∧
    ∃ executable, tree.entryAt? (tree.location origin ++ below) = some (.file content executable)

variable {origin : Path} {directories : List Path}

/-- What is extracted is below a directory, and the way to it is made of names. -/
theorem Extracted.names (formed : tree.WellFormed) {stem : Text} {names : List Text}
    (extracted : Extracted tree origin directories (stem :: names)) :
    names ≠ [] ∧ ∀ name ∈ stem :: names, Path.IsName name := by
  obtain ⟨_, _, same, isName, -, -, listed⟩ := extracted
  cases same
  obtain ⟨nonempty, areNames⟩ := formed.names_of_mem_filesAt listed
  exact ⟨nonempty, List.forall_mem_cons.2 ⟨isName, areNames⟩⟩

theorem getLast?_cons_eq {names : List Text} (nonempty : names ≠ []) (stem : Text) :
    (stem :: names).getLast? = names.getLast? := by
  obtain ⟨name, rest, rfl⟩ := List.exists_cons_of_ne_nil nonempty
  exact List.getLast?_cons_cons

/-- What is kept from directories side by side is kept from each of them. -/
theorem keptFrom_iff_kept (distinct : tree.Distinct) (sideBySide : SideBySide origin directories tree)
    {below : Location} {content : ByteArray} :
    KeptFrom tree directories below content ↔ Kept tree origin directories below content := by
  constructor
  · rintro ⟨directory, member, name, names, isFileName, rfl, has⟩
    obtain ⟨stem, isName, rfl⟩ := sideBySide.named directory member
    rw [Path.fileName?_join origin isName] at isFileName
    obtain rfl := Option.some.inj isFileName
    have nonempty := has.names_ne_nil
    obtain ⟨there, isReference, executable, isFile⟩ := has
    rw [location_join_name origin isName] at isFile
    refine ⟨⟨stem, names, rfl, isName, member, there, ?_⟩, by rwa [getLast?_cons_eq nonempty], executable, ?_⟩
    · exact distinct.mem_filesAt_iff.2 ⟨nonempty, content, executable, isFile⟩
    · rwa [List.append_cons]
  · rintro ⟨⟨stem, names, rfl, isName, member, there, listed⟩, isReference, executable, isFile⟩
    obtain ⟨nonempty, -⟩ := distinct.mem_filesAt_iff.1 listed
    rw [getLast?_cons_eq nonempty] at isReference
    refine ⟨origin.join stem, member, stem, names, Path.fileName?_join origin isName, rfl, there, isReference, executable, ?_⟩
    rwa [location_join_name origin isName, ← List.append_cons]

/-- The files to save are those that are kept. -/
theorem mem_savePlan_iff (formed : tree.WellFormed) (sideBySide : SideBySide origin directories tree)
    {item : Text × SourceFile} :
    item ∈ AddonWork.savePlan directories tree ↔
      ∃ stem names, Extracted tree origin directories (stem :: names) ∧
        names.getLast?.any (fun name => isReferenceFile ⟨name⟩) = true ∧
        item = (stem, { source := origin.descend (stem :: names)
                        relative := Text.joinWith ['/'] names }) := by
  constructor
  · intro inPlan
    obtain ⟨directory, member, name, names, isFileName, rfl, has⟩ := exists_of_mem_savePlan formed inPlan
    obtain ⟨stem, isName, rfl⟩ := sideBySide.named directory member
    rw [Path.fileName?_join origin isName] at isFileName
    obtain rfl := Option.some.inj isFileName
    rcases has with ⟨-, isFile⟩ | ⟨content, has⟩
    · rw [sideBySide.noFile _ member] at isFile
      cases isFile
    · have nonempty := has.names_ne_nil
      obtain ⟨there, isReference, executable, isFile⟩ := has
      rw [location_join_name origin isName] at isFile
      refine ⟨stem, names, ⟨stem, names, rfl, isName, member, there, ?_⟩, isReference, rfl⟩
      exact formed.distinct.mem_filesAt_iff.2 ⟨nonempty, content, executable, isFile⟩
  · rintro ⟨stem, names, ⟨_, _, same, isName, member, there, listed⟩, isReference, rfl⟩
    cases same
    obtain ⟨-, content, executable, isFile⟩ := formed.distinct.mem_filesAt_iff.1 listed
    rw [← location_join_name origin isName] at isFile
    have has : HasToKeep tree (origin.join stem) names content := ⟨there, isReference, executable, isFile⟩
    exact has.mem_savePlan formed member (Path.fileName?_join origin isName)

/-! ## Saving them -/

theorem SideBySide.differInName (sideBySide : SideBySide origin directories tree) : DifferInName directories := by
  intro first member second otherMember name isFileName otherName
  obtain ⟨stem, isName, rfl⟩ := sideBySide.named first member
  obtain ⟨other, otherIsName, rfl⟩ := sideBySide.named second otherMember
  rw [Path.fileName?_join origin isName] at isFileName
  rw [Path.fileName?_join origin otherIsName] at otherName
  cases isFileName
  cases otherName
  rfl

theorem Separate.hasPlace (separate : Separate cache temp addon tree) : HasPlace cache addon tree :=
  ⟨separate.isName, separate.rooted, separate.there, separate.avoids⟩

/-- The directories of extracted archives are apart from the entry. -/
theorem Separate.apartFrom (separate : Separate cache temp addon tree)
    (sideBySide : SideBySide (extractionRoot cache temp addon) directories tree) :
    ApartFrom tree (cache.entryPlace addon tree) directories where
  avoids directory member := by
    obtain ⟨stem, isName, rfl⟩ := sideBySide.named directory member
    rw [← Path.descend_singleton]
    exact separate.avoids_extracted (List.forall_mem_singleton.2 isName)
  notAbove directory member isPrefix := by
    obtain ⟨stem, isName, rfl⟩ := sideBySide.named directory member
    have length := isPrefix.length_le
    rw [location_join_name _ isName, separate.location_eq, separate.entryPlace_eq] at length
    simp at length

theorem Separate.isFile_eq (separate : Separate cache temp addon tree)
    (within : ChangesWithin (cache.entryPlace addon tree) tree after) {below : List Text}
    (areNames : ∀ name ∈ below, Path.IsName name) :
    after.isFile ((extractionRoot cache temp addon).descend below) =
      tree.isFile ((extractionRoot cache temp addon).descend below) := by
  have avoids := separate.avoids_extracted areNames
  rw [Bool.eq_iff_iff, isFile_iff, isFile_iff]
  exact exists_congr fun place => exists_congr fun content => exists_congr fun executable =>
    avoids.find_iff within.workingDirectory within.elsewhere

theorem Separate.sideBySide (separate : Separate cache temp addon tree)
    (within : ChangesWithin (cache.entryPlace addon tree) tree after)
    (sideBySide : SideBySide (extractionRoot cache temp addon) directories tree) :
    SideBySide (extractionRoot cache temp addon) directories after where
  named := sideBySide.named
  noFile directory member := by
    obtain ⟨stem, isName, rfl⟩ := sideBySide.named directory member
    rw [← sideBySide.noFile _ member, ← Path.descend_singleton]
    exact separate.isFile_eq within (List.forall_mem_singleton.2 isName)

/-- After the files of an addon were saved its entry holds what was to be kept. -/
theorem holds_of_saves (formed : tree.WellFormed) (separate : Separate cache temp addon tree)
    (sideBySide : SideBySide (extractionRoot cache temp addon) directories tree)
    (saves : Saves cache addon directories tree after) :
    ChangesWithin (cache.entryPlace addon tree) tree after ∧ after.WellFormed ∧
      after.find (cache.entry addon) = .ok (cache.entryPlace addon tree, .directory) ∧
      (∃ executable, after.entryAt? (cache.markerPlace addon tree) =
        some (.file (markerText true).encode executable)) ∧
      Holds (cache.entryPlace addon tree)
        (Kept tree (extractionRoot cache temp addon) directories) after := by
  obtain ⟨within, formedAfter, found, isMarker, holds⟩ := holds_keptFrom_of_saves formed separate.hasPlace
    (separate.apartFrom sideBySide) sideBySide.differInName saves
  refine ⟨within, formedAfter, found, isMarker, (holds_congr fun below content => ?_).1 holds⟩
  exact keptFrom_iff_kept formed.distinct sideBySide

end AddonIndex.Indexing
