import AddonIndex.Proofs.FileTree.History
import AddonIndex.Proofs.FileTree.Location
import AddonIndex.Proofs.Path.Descent
import Mathlib.Data.List.Induction
import Mathlib.Data.List.Nodup

/-!
# What is listed

A tree lists every location once. What is listed below a directory is then what
is at the locations below it, and no change makes it otherwise.
-/

namespace AddonIndex

namespace FileTree

variable {tree : FileTree} {path : Path} {place relative : Location}

/-- Whether every location is listed once. -/
def Distinct (tree : FileTree) : Prop := (tree.entries.map Prod.fst).Nodup

instance (tree : FileTree) : Decidable tree.Distinct := inferInstanceAs (Decidable (List.Nodup _))

/-- Whether a tree lists every location once, locations are made of names, and whatever is
there is in a directory. -/
structure WellFormed (tree : FileTree) : Prop where
  distinct : tree.Distinct
  named : ∀ item ∈ tree.entries, ∀ name ∈ item.1, Path.IsName name
  grounded : ∀ place name entry, tree.entryAt? (place ++ [name]) = some entry →
    tree.entryAt? place = some .directory

/-- Whether a tree is well-formed can be seen from its list of entries. -/
theorem wellFormed_of_entries (distinct : tree.Distinct)
    (named : ∀ item ∈ tree.entries, ∀ name ∈ item.1, Path.IsName name)
    (grounded : ∀ item ∈ tree.entries, (tree.entryAt? item.1.dropLast).any Entry.isDirectory = true) :
    tree.WellFormed := by
  refine ⟨distinct, named, fun place name entry there => ?_⟩
  have listed : (place ++ [name], entry) ∈ tree.entries :=
    mem_entries_of_entryAt? (by simp) there
  have above := grounded _ listed
  rw [List.dropLast_concat] at above
  cases parent : tree.entryAt? place with
  | none =>
      rw [parent] at above
      cases above
  | some found =>
      rw [parent] at above
      cases found with
      | directory => rfl
      | file content executable => cases above

/-- Above whatever is there are directories. -/
theorem WellFormed.above (formed : tree.WellFormed) {entry : Entry}
    (there : tree.entryAt? (place ++ relative) = some entry) (below : relative ≠ []) :
    tree.entryAt? place = some .directory := by
  induction relative using List.reverseRecOn generalizing entry with
  | nil => exact absurd rfl below
  | append_singleton front name ih =>
      rw [← List.append_assoc] at there
      have parent := formed.grounded _ _ _ there
      rcases List.eq_nil_or_concat front with rfl | ⟨rest, last, ends⟩
      · rwa [List.append_nil] at parent
      · exact ih parent (by rw [ends]; simp)

theorem WellFormed.names (formed : tree.WellFormed) {entry : Entry}
    (there : tree.entryAt? place = some entry) : ∀ name ∈ place, Path.IsName name := by
  by_cases below : place = []
  · rw [below]
    exact List.forall_mem_nil _
  · exact formed.named _ (mem_entries_of_entryAt? below there)

theorem mem_entries_of_mem_children {name : Text} {entry : Entry} (member : (name, entry) ∈ tree.children place) :
    (place ++ [name], entry) ∈ tree.entries := by
  obtain ⟨⟨relative, found⟩, listed, isChild⟩ := List.mem_filterMap.1 member
  obtain ⟨-, inEntries⟩ := mem_below_iff.1 listed
  simp only at isChild
  split at isChild
  · cases isChild
    exact inEntries
  · cases isChild

/-- What is listed in a directory is listed by name. -/
theorem isName_of_mem_children (named : ∀ item ∈ tree.entries, ∀ name ∈ item.1, Path.IsName name) {name : Text}
    {entry : Entry} (member : (name, entry) ∈ tree.children place) : Path.IsName name :=
  named _ (mem_entries_of_mem_children member) name (List.mem_append_right _ List.mem_cons_self)

theorem Distinct.apply (distinct : tree.Distinct) (change : Change) :
    (tree.apply change).Distinct := by
  have put : ∀ location entry, (tree.put location entry).Distinct := by
    intro location entry
    unfold FileTree.put Distinct
    split
    · have same : (tree.entries.map fun item =>
          if item.1 = location then (location, entry) else item).map Prod.fst =
            tree.entries.map Prod.fst := by
        rw [List.map_map]
        refine List.map_congr_left fun item _ => ?_
        by_cases isLocation : item.1 = location <;> simp [isLocation]
      exact same ▸ distinct
    · rename_i absent
      rw [Bool.not_eq_true, Option.isSome_eq_false_iff, Option.isNone_iff_eq_none,
        List.lookup_eq_none_iff] at absent
      simp only [List.map_append, List.map_cons, List.map_nil, List.nodup_append]
      refine ⟨distinct, List.nodup_singleton _, ?_⟩
      intro other inEntries new inNew same
      obtain ⟨item, member, rfl⟩ := List.mem_map.1 inEntries
      rw [List.mem_singleton.1 inNew] at same
      simpa [same] using absent item member
  cases change with
  | makeDirectory location => exact put location .directory
  | putFile location content executable => exact put location (.file content executable)
  | erase location => exact (List.filter_sublist.map Prod.fst).nodup distinct

theorem Distinct.applyAll (distinct : tree.Distinct) (changes : List Change) :
    (tree.applyAll changes).Distinct := by
  induction changes generalizing tree with
  | nil => exact distinct
  | cons change changes ih => exact ih (distinct.apply change)

/-- Where locations are listed once, what is listed at one is what is there. -/
theorem Distinct.mem_entries_iff (distinct : tree.Distinct) (below : place ≠ []) {entry : Entry} :
    (place, entry) ∈ tree.entries ↔ tree.entryAt? place = some entry := by
  refine ⟨fun member => ?_, mem_entries_of_entryAt? below⟩
  rw [entryAt?, if_neg below]
  obtain ⟨before, after, split⟩ := List.append_of_mem member
  refine List.lookup_eq_some_iff.2 ⟨before, after, split, fun item inBefore => ?_⟩
  unfold Distinct at distinct
  rw [split, List.map_append, List.map_cons, List.nodup_append] at distinct
  have other : item.1 ≠ place :=
    distinct.2.2 item.1 (List.mem_map_of_mem inBefore) place List.mem_cons_self
  simpa using other.symm

/-- The locations of the files below a location, as seen from it. -/
def filesAt (tree : FileTree) (place : Location) : List Location :=
  (tree.below place).filterMap fun (relative, entry) => if entry.isFile then some relative else none

theorem Distinct.mem_filesAt_iff (distinct : tree.Distinct) :
    relative ∈ tree.filesAt place ↔
      relative ≠ [] ∧ ∃ content executable,
        tree.entryAt? (place ++ relative) = some (.file content executable) := by
  unfold filesAt
  rw [List.mem_filterMap]
  constructor
  · rintro ⟨⟨other, entry⟩, listed, found⟩
    obtain ⟨nonempty, member⟩ := mem_below_iff.1 listed
    cases entry with
    | directory => cases found
    | file content executable =>
        cases found
        exact ⟨nonempty, content, executable,
          (distinct.mem_entries_iff (List.append_ne_nil_of_right_ne_nil _ nonempty)).1 member⟩
  · rintro ⟨nonempty, content, executable, there⟩
    exact ⟨(relative, .file content executable), mem_below_iff.2 ⟨nonempty,
      (distinct.mem_entries_iff (List.append_ne_nil_of_right_ne_nil _ nonempty)).2 there⟩, rfl⟩

/-- What is listed below a location is listed once. -/
theorem Distinct.pairwise_below (distinct : tree.Distinct) (place : Location) :
    (tree.below place).Pairwise fun first second => first.1 ≠ second.1 := by
  refine List.Pairwise.filterMap _ (fun first second differ => ?_) (List.pairwise_map.1 distinct)
  rintro ⟨relative, entry⟩ found ⟨other, otherEntry⟩ otherFound rfl
  obtain ⟨location, _⟩ := first
  obtain ⟨otherLocation, _⟩ := second
  simp only at found otherFound
  split at found
  · rename_i lead
    cases found
    split at otherFound
    · rename_i otherLead
      cases otherFound
      exact differ ((dropLead?_eq_some_iff.1 lead).trans (dropLead?_eq_some_iff.1 otherLead).symm)
    · cases otherFound
  · cases found

theorem Distinct.nodup_filesAt (distinct : tree.Distinct) (place : Location) :
    (tree.filesAt place).Nodup := by
  refine List.Pairwise.filterMap _ (fun first second differ => ?_) (distinct.pairwise_below place)
  intro relative found other otherFound
  have relativeOf : ∀ {item : Location × Entry} {relative : Location},
      (if item.2.isFile then some item.1 else none) = some relative → item.1 = relative := by
    intro item relative found
    split at found
    · exact Option.some.inj found
    · cases found
  exact relativeOf found ▸ relativeOf otherFound ▸ differ

/-- The files below a directory are those at the locations below it. -/
theorem filesBelow_eq (found : tree.find path = .ok (place, .directory)) :
    tree.filesBelow path = (tree.filesAt place).map path.descend := by
  rw [filesBelow, found, filesAt, List.map_filterMap]
  refine List.filterMap_congr fun item _ => ?_
  obtain ⟨relative, entry⟩ := item
  cases entry <;> rfl

/-- The locations of what is below a place are made of names. -/
theorem WellFormed.names_of_mem_filesAt (formed : tree.WellFormed)
    (member : relative ∈ tree.filesAt place) :
    relative ≠ [] ∧ ∀ name ∈ relative, Path.IsName name := by
  obtain ⟨nonempty, content, executable, there⟩ := formed.distinct.mem_filesAt_iff.1 member
  exact ⟨nonempty, fun name inRelative => formed.names there name (List.mem_append_right _ inRelative)⟩

/-- The files that are looked for below a directory are those at the locations below it that end
with a wanted name. -/
theorem filter_filesBelow_eq (formed : tree.WellFormed) (found : tree.find path = .ok (place, .directory))
    {wanted : Path → Bool} {wantedName : Text → Bool}
    (decides : ∀ base name, Path.IsName name → wanted (Path.join base name) = wantedName name) :
    (tree.filesBelow path).filter wanted =
      ((tree.filesAt place).filter (·.getLast?.any wantedName)).map path.descend := by
  rw [filesBelow_eq found, List.filter_map]
  refine congrArg (List.map path.descend) (List.filter_congr fun relative member => ?_)
  obtain ⟨nonempty, areNames⟩ := formed.names_of_mem_filesAt member
  rcases List.eq_nil_or_concat relative with rfl | ⟨front, last, rfl⟩
  · exact absurd rfl nonempty
  · rw [List.concat_eq_append] at areNames ⊢
    simp only [Function.comp_apply, Path.descend_append, Path.descend_singleton,
      List.getLast?_concat, Option.any_some]
    exact decides _ last (areNames last (by simp))

theorem findFiles_eq (formed : tree.WellFormed) (found : tree.find path = .ok (place, .directory))
    (wanted : Text → Bool) :
    tree.findFiles path wanted =
      Path.sort (((tree.filesAt place).filter (·.getLast?.any wanted)).map path.descend) := by
  rw [findFiles, filter_filesBelow_eq formed found]
  intro base name isName
  simp only [Path.fileName?_join base isName]

theorem filesBelow_of_missing (noDirectory : tree.isDirectory path = false)
    (noFile : tree.isFile path = false) : tree.filesBelow path = [] := by
  unfold filesBelow
  unfold isDirectory at noDirectory
  unfold isFile at noFile
  split
  · rfl
  · rename_i found
    rw [found] at noFile
    cases noFile
  · rename_i found
    rw [found] at noDirectory
    cases noDirectory

theorem mem_findFiles_iff (formed : tree.WellFormed) (noFile : tree.isFile path = false)
    {wanted : Text → Bool} {file : Path} :
    file ∈ tree.findFiles path wanted ↔
      tree.isDirectory path = true ∧ ∃ relative ∈ tree.filesAt (tree.location path),
        relative.getLast?.any wanted = true ∧ path.descend relative = file := by
  cases there : tree.isDirectory path with
  | false =>
      rw [findFiles, filesBelow_of_missing there noFile]
      simp [Path.sort]
  | true =>
      obtain ⟨place, found⟩ := isDirectory_iff.1 there
      obtain rfl := find_location found
      rw [findFiles_eq formed found, Path.sort, List.mem_mergeSort, List.mem_map]
      simp [and_assoc]

end FileTree

end AddonIndex
