import AddonIndex.Proofs.FileTree.Preservation
import AddonIndex.Proofs.FileTree.RemovalOrder

/-!
# Trees that stay well-formed

Directories and files are made only in directories, if the way to them begins in one. What is removed takes along all
that is below it. So a tree stays well-formed as long as the directory in which relative paths begin is not removed.
-/

namespace AddonIndex

namespace FileTree

open Location

variable {home parent place reached : Location} {tree : FileTree} {path : Path} {name : Text} {parts : List Text}
  {change : Change} {changes : List Change}

/-- Whether a tree is well-formed, and relative paths begin in a directory of it. -/
structure Housed (home : Location) (tree : FileTree) : Prop where
  formed : tree.WellFormed
  workingDirectory : tree.workingDirectory = home
  isHome : tree.entryAt? home = some .directory

/-! ## Ways -/

/-- A way that begins in a directory leads to one. -/
theorem WellFormed.directory_of_walk (formed : tree.WellFormed) (begins : tree.entryAt? place = some .directory)
    (walked : tree.walk place parts = .ok reached) : tree.entryAt? reached = some .directory := by
  induction parts generalizing place with
  | nil =>
      cases walked
      exact begins
  | cons part parts ih =>
      rcases walk_cons_eq_ok_iff.1 walked with ⟨stepped, walked⟩
      apply ih _ walked
      rcases stepInto_eq_ok_iff.1 stepped with ⟨-, rfl | rfl | ⟨-, there⟩⟩
      · exact begins
      · rcases List.eq_nil_or_concat place with rfl | ⟨above, last, rfl⟩
        · rfl
        · rw [List.concat_eq_append] at begins ⊢
          have isUp : step (above ++ [last]) ['.', '.'] = above := List.dropLast_concat
          rw [isUp]
          exact formed.grounded above last _ begins
      · exact there

/-- Where something is erased nothing is left. -/
theorem entryAt?_of_erases (erases : ∀ change ∈ changes, change.Erases) (place : Location) :
    (tree.applyAll changes).entryAt? place = tree.entryAt? place ∨ (tree.applyAll changes).entryAt? place = none := by
  by_cases root : place = []
  · rw [root]
    exact .inl rfl
  rcases Classical.em (∃ change ∈ changes, change.location = place) with ⟨change, member, touches⟩ | untouched
  · rcases exists_entryAt?_applyAll tree root member touches with ⟨last, isLast, -, left⟩
    rcases erases last isLast with ⟨_, rfl⟩
    exact .inr left
  · exact .inl (entryAt?_applyAll_of_untouched fun change member touches => untouched ⟨change, member, touches⟩)

/-- What a path is resolved to has a name. -/
theorem isName_of_resolve {slash : Bool} (resolved : tree.resolve path = .ok (.name parent name slash)) :
    Path.IsName name := by
  rcases resolve_eq_name_iff.1 resolved with ⟨-, front, written, notHere, notUp, -⟩
  rcases @Path.part_of_mem_written path name (by rw [written]; simp) with ⟨nonempty, noSlash⟩
  exact ⟨nonempty, noSlash, notHere, notUp⟩

namespace Housed

variable (housed : Housed home tree)

include housed

theorem named : tree.Named where
  entries := housed.formed.named
  start := by
    rw [housed.workingDirectory]
    exact housed.formed.names housed.isHome

theorem entryAt?_start (path : Path) : tree.entryAt? (tree.start path) = some .directory := by
  unfold FileTree.start
  split
  · rfl
  · rw [housed.workingDirectory]
    exact housed.isHome

/-- A name is looked up in a directory. -/
theorem entryAt?_of_resolve {slash : Bool} (resolved : tree.resolve path = .ok (.name parent name slash)) :
    tree.entryAt? parent = some .directory := by
  rcases resolve_eq_name_iff.1 resolved with ⟨-, front, -, -, -, -, walked, -⟩
  exact housed.formed.directory_of_walk (housed.entryAt?_start path) walked

/-- What is changed in a directory may be a file that is written, or a directory that is made where none is. -/
theorem apply (isPlace : change.location = parent ++ [name]) (isName : Path.IsName name)
    (begins : tree.entryAt? parent = some .directory)
    (noDirectory : tree.entryAt? (parent ++ [name]) ≠ some .directory) : Housed home (tree.apply change) := by
  have areNames : ∀ other ∈ change.location, Path.IsName other := by
    rw [isPlace]
    exact List.forall_mem_append.2 ⟨housed.formed.names begins, List.forall_mem_singleton.2 isName⟩
  have elsewhere : ∀ other, other ≠ parent ++ [name] → (tree.apply change).entryAt? other = tree.entryAt? other := by
    intro other differs
    rw [entryAt?_apply, if_neg fun both => differs (both.2.trans isPlace)]
  have isParent : (tree.apply change).entryAt? parent = some .directory := by
    rw [elsewhere parent fun same => List.cons_ne_nil name [] (List.append_cancel_left
      ((List.append_nil parent).trans same)).symm]
    exact begins
  refine ⟨⟨housed.formed.distinct.apply change, ?_, ?_⟩, ?_, ?_⟩
  · exact (housed.named.applyAll (List.forall_mem_singleton.2 fun _ => areNames)).entries
  · intro above last entry there
    by_cases here : above ++ [last] = parent ++ [name]
    · rw [(List.append_inj' here rfl).1]
      exact isParent
    · rw [elsewhere _ here] at there
      have isAbove := housed.formed.grounded above last entry there
      rw [elsewhere above fun same => noDirectory (same ▸ isAbove)]
      exact isAbove
  · exact (workingDirectory_apply change).trans housed.workingDirectory
  · rw [elsewhere home fun same => noDirectory (same ▸ housed.isHome)]
    exact housed.isHome

/-- A file may be written to several times. -/
theorem applyAll_putFile (isName : Path.IsName name) (begins : tree.entryAt? parent = some .directory)
    (noDirectory : tree.entryAt? (parent ++ [name]) ≠ some .directory)
    (puts : ∀ change ∈ changes, ∃ content executable, change = .putFile (parent ++ [name]) content executable) :
    Housed home (tree.applyAll changes) := by
  induction changes generalizing tree with
  | nil => exact housed
  | cons change rest ih =>
      rcases List.forall_mem_cons.1 puts with ⟨⟨content, executable, rfl⟩, later⟩
      have put := @puts_putFile tree (parent ++ [name]) (by simp) content executable
      apply ih (housed.apply rfl isName begins noDirectory) _ _ later
      · rw [put.entryAt?, if_neg]
        · exact begins
        · exact fun same => noDirectory (same ▸ begins)
      · rw [put.entryAt?, if_pos rfl]
        exact nofun

/-- If directories are erased only with all that is in them, the tree stays well-formed. -/
theorem erase (erases : ∀ change ∈ changes, change.Erases)
    (below : ∀ place name, tree.entryAt? place = some .directory → (tree.applyAll changes).entryAt? place = none →
      (tree.applyAll changes).entryAt? (place ++ [name]) = none)
    (stays : (tree.applyAll changes).entryAt? home ≠ none) : Housed home (tree.applyAll changes) := by
  have same : ∀ place, (tree.applyAll changes).entryAt? place ≠ none →
      (tree.applyAll changes).entryAt? place = tree.entryAt? place :=
    fun place there => (entryAt?_of_erases erases place).resolve_right there
  have distinct : (tree.applyAll changes).Distinct := housed.formed.distinct.applyAll changes
  refine ⟨⟨distinct, ?_, ?_⟩, ?_, ?_⟩
  · apply (housed.named.applyAll _).entries
    intro change member left
    rcases erases change member with ⟨_, rfl⟩
    cases left
  · intro place name entry there
    have isDirectory : tree.entryAt? place = some .directory := by
      apply housed.formed.grounded place name entry
      rw [← same _ (there ▸ nofun)]
      exact there
    rw [same place]
    · exact isDirectory
    · intro gone
      rw [below place name isDirectory gone] at there
      cases there
  · exact (workingDirectory_applyAll tree changes).trans housed.workingDirectory
  · rw [same home stays]
    exact housed.isHome

end Housed

end FileTree

namespace FileOp

open FileTree

variable {α β : Type} {home place : Location} {tree : FileTree} {path source target : Path}

/-! ## Operations -/

/-- Whether an operation leaves a tree well-formed, with the directory in which relative paths begin. -/
abbrev KeepsHouse (home : Location) (operation : FileOp α) : Prop :=
  Leads (fun before after => Housed home before → Housed home after) operation

theorem KeepsHouse.bind {first : FileOp α} {next : α → FileOp β} (keeps : KeepsHouse home first)
    (later : ∀ a, KeepsHouse home (next a)) : KeepsHouse home (first >>= next) :=
  Leads.bind (fun _ _ _ first second housed => second (first housed)) keeps later

theorem keepsHouse_pure (a : α) : KeepsHouse home (pure a : FileOp α) :=
  fun _ housed => housed

theorem keepsHouse_makeDirectory (path : Path) : KeepsHouse home (makeDirectory path) := by
  intro tree housed
  rcases makeDirectory_cases path tree with ⟨e, failed⟩ | ⟨parent, name, slash, resolved, absent, made⟩
  · rw [failed]
    exact housed
  · rw [made]
    change Housed home (tree.apply (.makeDirectory (parent ++ [name])))
    apply housed.apply rfl (isName_of_resolve resolved) (housed.entryAt?_of_resolve resolved)
    rw [absent]
    exact nofun

theorem keepsHouse_makeDirectories (path : Path) : KeepsHouse home (makeDirectories path) := by
  apply Leads.makeDirectoriesAlong
  · exact fun _ housed => housed
  · exact fun _ _ _ first second housed => second (first housed)
  · exact fun above _ => keepsHouse_makeDirectory above

/-- Where a file can be written it may be written to several times. -/
theorem housed_of_writable {executable : Bool} {changes : List Change} (housed : Housed home tree)
    (canWrite : writable path tree = .ok (place, executable))
    (puts : ∀ change ∈ changes, ∃ content executable, change = .putFile place content executable) :
    Housed home (tree.applyAll changes) := by
  rcases writable_eq_ok_iff.1 canWrite with ⟨parent, name, resolved, rfl, -⟩
  have noDirectory := (location_of_writable canWrite).2.2
  exact housed.applyAll_putFile (isName_of_resolve resolved) (housed.entryAt?_of_resolve resolved) noDirectory puts

theorem keepsHouse_writeBytes (path : Path) (content : ByteArray) : KeepsHouse home (writeBytes path content) := by
  intro tree housed
  rw [writeBytes_eq]
  cases canWrite : writable path tree with
  | error e => exact housed
  | ok found =>
      apply housed_of_writable housed canWrite
      intro change member
      rcases List.mem_pair.1 member with rfl | rfl
      · exact ⟨_, _, rfl⟩
      · exact ⟨_, _, rfl⟩

theorem keepsHouse_copyFile (source target : Path) : KeepsHouse home (copyFile source target) := by
  intro tree housed
  rcases List.eq_nil_or_concat (copyFile source target tree).1 with nothing | ⟨front, last, whole⟩
  · rw [nothing]
    exact housed
  have isChange : last ∈ (copyFile source target tree).1 := by
    rw [whole]
    simp
  rcases putFile_of_mem_copyFile isChange with ⟨place, executable, -, -, canWrite, -⟩
  apply housed_of_writable housed canWrite
  intro change member
  rcases putFile_of_mem_copyFile member with ⟨other, flag, content, executable, canWriteAlso, rfl⟩
  rw [canWrite] at canWriteAlso
  cases canWriteAlso
  exact ⟨content, executable, rfl⟩

/-- A place may be erased with all that is below it, unless home is there. -/
theorem housed_of_erases {changes : List Change} (housed : Housed home tree)
    (erases : ∀ change ∈ changes, change.Erases) (within : ∀ change ∈ changes, place <+: change.location)
    (empties : ∀ below, below ≠ [] → (tree.applyAll changes).entryAt? (place ++ below) = none)
    (spared : ¬ place <+: home) : Housed home (tree.applyAll changes) := by
  have elsewhere : ∀ other, ¬ place <+: other → (tree.applyAll changes).entryAt? other = tree.entryAt? other := by
    intro other notWithin
    apply entryAt?_applyAll_of_untouched
    rintro change member rfl
    exact notWithin (within change member)
  apply housed.erase erases
  · intro other name isDirectory gone
    by_cases inside : place <+: other
    · rcases inside with ⟨below, rfl⟩
      rw [List.append_assoc]
      exact empties (below ++ [name]) (by simp)
    · rw [elsewhere other inside, isDirectory] at gone
      cases gone
  · rw [elsewhere home spared, housed.isHome]
    exact nofun

theorem housed_removeTree (housed : Housed home tree) (spared : ¬ tree.location path <+: home) :
    Housed home ((removeTree path).run tree).1 := by
  cases found : tree.find path with
  | error e =>
      rw [run_eq, removeTree_of_error found]
      exact housed
  | ok item =>
      rcases item with ⟨place, _ | ⟨content, executable⟩⟩
      · have leads := find_location found
        apply housed_of_erases housed (only_removeTree path tree) _ _ spared
        · intro change member
          rcases erases_of_mem_removeTree member with ⟨below, rfl⟩
          exact List.prefix_append _ _
        · intro below nonempty
          rw [← leads]
          exact entryAt?_below_removeTree found nonempty
      · rw [run_eq, removeTree_of_file found]
        exact housed

theorem keepsHouse_removeTree {base : FileTree} (spared : ¬ base.location path <+: base.workingDirectory) :
    KeepsHouse base.workingDirectory (removeTree path) := by
  intro tree housed
  apply housed_removeTree housed
  rw [location_congr housed.workingDirectory]
  exact spared

/-- Only an empty directory is removed on its own. -/
theorem isEmpty_of_removeDirectory (removed : removeDirectory path tree = ([.erase (tree.location path)], .ok ())) :
    (tree.below (tree.location path)).isEmpty = true := by
  cases resolved : tree.resolve path with
  | error e =>
      rw [removeDirectory_of_error resolved] at removed
      cases removed
  | ok found =>
      cases found with
      | dots directory last =>
          rcases removeDirectory_of_dots resolved with ⟨e, -, failed⟩
          rw [failed] at removed
          cases removed
      | name parent name slash =>
          rw [← location_of_resolve resolved] at removed ⊢
          rw [removeDirectory_of_name resolved] at removed
          split at removed
          · cases removed
          · cases removed
          · split at removed
            · assumption
            · cases removed

theorem housed_removeDirectory (housed : Housed home tree) (spared : ¬ tree.location path <+: home) :
    Housed home ((removeDirectory path).run tree).1 := by
  rcases removeDirectory_cases path tree with ⟨e, failed⟩ | removed
  · rw [run_eq, failed]
    exact housed
  have isEmpty := isEmpty_of_removeDirectory removed
  have erased : ((removeDirectory path).run tree).1 = tree.applyAll [.erase (tree.location path)] := by
    rw [run_eq, removed]
  rw [erased]
  apply housed_of_erases housed _ _ _ spared
  · exact List.forall_mem_singleton.2 ⟨_, rfl⟩
  · exact List.forall_mem_singleton.2 List.prefix_rfl
  · intro below nonempty
    apply (entryAt?_of_erases (List.forall_mem_singleton.2 ⟨_, rfl⟩) _).elim _ id
    intro same
    rw [same]
    by_contra there
    rcases Option.ne_none_iff_exists'.1 there with ⟨entry, there⟩
    have listed : (below, entry) ∈ tree.below (tree.location path) :=
      mem_below_iff.2 ⟨nonempty, mem_entries_of_entryAt? (List.append_ne_nil_of_right_ne_nil _ nonempty) there⟩
    rw [List.isEmpty_iff.1 isEmpty] at listed
    cases listed

theorem keepsHouse_removeDirectory {base : FileTree} (spared : ¬ base.location path <+: base.workingDirectory) :
    KeepsHouse base.workingDirectory (removeDirectory path) := by
  intro tree housed
  apply housed_removeDirectory housed
  rw [location_congr housed.workingDirectory]
  exact spared

end FileOp

end AddonIndex
