import AddonIndex.Proofs.FileTree.Outcome
import AddonIndex.Proofs.Path.Descent

/-!
# What failed operations leave

A directory that cannot be made is not there afterwards, and a file that cannot
be written was none before. A directory is emptied also if it cannot be removed,
and a copy that fails has changed nothing but its target.
-/

namespace AddonIndex

namespace FileTree

variable {tree : FileTree} {path parent : Path}

/-- The way along a path begins where the way along one that begins it does. -/
theorem start_eq_of_begins {base : Path} (nonempty : base.text ≠ []) (isPrefix : base.text <+: path.text) :
    tree.start path = tree.start base := by
  obtain ⟨more, text⟩ := isPrefix
  obtain ⟨c, rest, first⟩ := List.exists_cons_of_ne_nil nonempty
  unfold FileTree.start Path.isAbsolute
  rw [← text, first]
  rfl

/-- A path that begins another one leads to a directory if the way that is written in it is open. -/
theorem find_of_prefix {base : Path} {place : Location} (passable : Passable path)
    (nonempty : base.text ≠ []) (isPrefix : base.text <+: path.text)
    (walked : tree.walk (tree.start path) base.written = .ok place) :
    tree.find base = .ok (place, .directory) := by
  obtain ⟨-, noZero, short⟩ := passable
  rw [start_eq_of_begins nonempty isPrefix] at walked
  obtain ⟨more, text⟩ := isPrefix
  rw [← text, List.mem_append, not_or] at noZero
  rw [← text, Text.utf8Size_append] at short
  exact find_eq_directory_iff.2 ⟨⟨nonempty, noZero.1, by omega⟩, walked⟩

/-- A path leads to a directory only if its parent does or is empty. -/
theorem isDirectory_parent (isParent : path.parent? = some parent) (nonempty : parent.text ≠ [])
    (there : tree.isDirectory path = true) : tree.isDirectory parent = true := by
  obtain ⟨place, found⟩ := isDirectory_iff.1 there
  obtain ⟨passable, walked⟩ := find_eq_directory_iff.1 found
  obtain ⟨later, written⟩ := Path.written_parent_prefix isParent nonempty
  rw [← written, walk_append] at walked
  obtain ⟨between, walkedParent, -⟩ := bind_eq_ok_iff.1 walked
  exact isDirectory_iff.2 ⟨between,
    find_of_prefix passable nonempty (Path.text_parent_prefix isParent) walkedParent⟩

/-- A name is found below a path only if the path leads to a directory or is empty. -/
theorem isDirectory_of_find_join {base : Path} {name : Text} (isName : Path.IsName name)
    (nonempty : base.text ≠ []) {place : Location} {entry : Entry}
    (found : tree.find (base.join name) = .ok (place, entry)) : tree.isDirectory base = true := by
  obtain ⟨passable, -, directory, walked, -⟩ := (find_join_name_iff isName).1 found
  have isPrefix := Path.text_prefix_join base isName.head?_ne_slash
  rw [← start_join isName.head?_ne_slash] at walked
  exact isDirectory_iff.2 ⟨directory, find_of_prefix passable nonempty isPrefix walked⟩

/-- What is listed after changes was listed before or was left by one of them. -/
theorem mem_entries_applyAll {changes : List Change} {item : Location × Entry}
    (listed : item ∈ (tree.applyAll changes).entries) :
    item ∈ tree.entries ∨ ∃ change ∈ changes, change.location = item.1 ∧ change.leaves? = some item.2 := by
  have put : ∀ (tree : FileTree) place entry, item ∈ (tree.put place entry).entries →
      item ∈ tree.entries ∨ item = (place, entry) := by
    intro tree place entry listed
    unfold FileTree.put at listed
    split at listed
    · obtain ⟨old, member, rfl⟩ := List.mem_map.1 listed
      split
      · exact .inr rfl
      · exact .inl member
    · exact (List.mem_append.1 listed).imp_right List.mem_singleton.1
  induction changes generalizing tree with
  | nil => exact .inl listed
  | cons change changes ih =>
      rcases ih listed with before | ⟨later, member, left⟩
      · cases change with
        | makeDirectory place =>
            refine (put tree place _ before).imp_right ?_
            rintro rfl
            exact ⟨_, List.mem_cons_self, rfl, rfl⟩
        | putFile place content executable =>
            refine (put tree place _ before).imp_right ?_
            rintro rfl
            exact ⟨_, List.mem_cons_self, rfl, rfl⟩
        | erase place => exact .inl (List.mem_filter.1 before).1
      · exact .inr ⟨later, List.mem_cons_of_mem _ member, left⟩

end FileTree

namespace FileOp

open FileTree

variable {α β : Type} {tree after : FileTree} {path source target : Path} {e : FileError}

/-- A sequence fails if its first operation does, or if its second one does after the first one. -/
theorem run_bind_eq_error_iff {first : FileOp α} {next : α → FileOp β} :
    (first >>= next).run tree = (after, .error e) ↔
      first.run tree = (after, .error e) ∨
        ∃ a middle, first.run tree = (middle, .ok a) ∧ (next a).run middle = (after, .error e) := by
  simp only [run_eq]
  cases result : (first tree).2 with
  | error other =>
      rw [bind_of_error result]
      simp
  | ok a =>
      rw [bind_of_ok result, applyAll_append]
      simp

/-- If the first directory of a list cannot be made, it is not there or those after it cannot be
made. -/
theorem makeDirectoriesAlong_cons_eq_error {ancestors : List Path}
    (failed : (makeDirectoriesAlong (path :: ancestors)).run tree = (after, .error e)) :
    after.isDirectory path = false ∨
      ∃ middle, (makeDirectoriesAlong ancestors).run middle = (after, .error e) := by
  have orElse : ∀ {before : FileTree} {cause : FileError},
      (inspect (fun tree => .ok (tree.isDirectory path)) >>= fun there =>
        if there then (pure () : FileOp Unit) else fail cause).run before = (after, .error e) →
      after.isDirectory path = false := by
    intro before cause ended
    rw [run_eq, orElse_eq] at ended
    obtain ⟨rfl, result⟩ := Prod.mk.inj ended
    rw [applyAll_nil]
    cases there : before.isDirectory path with
    | true =>
        rw [there] at result
        cases result
    | false => rfl
  have attempted : ∀ {before : FileTree},
      (attempt (makeDirectory path)).run before ≠ (after, .error e) := by
    intro before ended
    cases ended
  unfold makeDirectoriesAlong at failed
  split at failed
  · cases failed
  · obtain ⟨result, first, -, ended⟩ := (run_bind_eq_error_iff.1 failed).resolve_left attempted
    split at ended
    · cases ended
    · rcases run_bind_eq_error_iff.1 ended with above | ⟨_, second, -, ended⟩
      · exact .inr ⟨first, above⟩
      · obtain ⟨again, third, -, ended⟩ := (run_bind_eq_error_iff.1 ended).resolve_left attempted
        split at ended
        · cases ended
        · exact .inl (orElse ended)
    · exact .inl (orElse ended)

/-- Nothing is made at an empty path, and that does not fail. -/
theorem text_ne_nil_of_makeDirectories_error
    (failed : (makeDirectories path).run tree = (after, .error e)) : path.text ≠ [] := by
  intro empty
  obtain ⟨ancestors, along⟩ := exists_ancestors_eq path
  rw [makeDirectories, along] at failed
  unfold makeDirectoriesAlong at failed
  rw [if_pos (by simpa using empty)] at failed
  cases failed

/-- A directory that could not be made with the missing ones above it is not there. -/
theorem isDirectory_of_makeDirectories_error
    (failed : (makeDirectories path).run tree = (after, .error e)) : after.isDirectory path = false := by
  unfold makeDirectories at failed
  fun_induction Path.ancestors path generalizing tree with
  | case1 path isRoot =>
      rcases makeDirectoriesAlong_cons_eq_error failed with missing | ⟨middle, none⟩
      · exact missing
      · cases none
  | case2 path parent isParent ih =>
      rcases makeDirectoriesAlong_cons_eq_error failed with missing | ⟨middle, above⟩
      · exact missing
      · have nonempty := text_ne_nil_of_makeDirectories_error above
        rw [Bool.eq_false_iff]
        intro there
        exact Bool.eq_false_iff.1 (ih above) (isDirectory_parent isParent nonempty there)

/-- What each attempt to make one of some directories leads to, to make all of them leads to. -/
theorem Leads.makeDirectoriesAlong {related : FileTree → FileTree → Prop} {paths : List Path}
    (refl : ∀ tree, related tree tree) (trans : ∀ a b c, related a b → related b c → related a c)
    (each : ∀ path ∈ paths, Leads related (makeDirectory path)) : Leads related (makeDirectoriesAlong paths) := by
  have orElse : ∀ path e, Leads related
      (inspect (fun tree => .ok (tree.isDirectory path)) >>= fun there =>
        if there then (pure () : FileOp Unit) else fail e) := by
    intro path e tree
    rw [orElse_eq]
    exact refl tree
  induction paths with
  | nil => exact refl
  | cons path ancestors ih =>
      rcases List.forall_mem_cons.1 each with ⟨one, each⟩
      have tried : Leads related (attempt (makeDirectory path)) := one
      unfold FileOp.makeDirectoriesAlong
      split
      · exact refl
      · refine tried.bind trans fun made => ?_
        split
        · exact refl
        · refine (ih each).bind trans fun _ => tried.bind trans fun again => ?_
          split
          · exact refl
          · exact orElse path _
        · exact orElse path _

/-- Also where they cannot all be made, directories are made only where nothing is. -/
theorem leads_makeDirectories (path : Path) : Leads (Grows fun _ => True) (makeDirectories path) := by
  apply Leads.makeDirectoriesAlong Grows.refl fun _ _ _ => Grows.trans
  exact fun path _ tree => (grows_makeDirectory path tree).mono fun _ _ => trivial

/-- A file that cannot be written cannot be found either. -/
theorem not_find_of_writeBytes_error {content : ByteArray}
    (failed : (writeBytes path content).run tree = (after, .error e)) {place : Location}
    {found : ByteArray} {executable : Bool} : after.find path ≠ .ok (place, .file found executable) := by
  intro there
  rw [run_eq, writeBytes_eq] at failed
  rcases find_eq_ok_iff.1 there with ⟨last, -, none⟩ | ⟨parent, name, slash, resolved, rfl, file, ends⟩
  · cases none
  · cases canWrite : writable path tree with
    | ok item =>
        rw [canWrite] at failed
        cases failed
    | error other =>
        rw [canWrite] at failed
        obtain ⟨rfl, -⟩ := Prod.mk.inj failed
        rw [applyAll_nil] at resolved file
        cases slash with
        | true => cases ends rfl
        | false =>
            have writes := writable_eq_ok_iff.2 ⟨parent, name, resolved, rfl, .inr ⟨found, file⟩⟩
            rw [canWrite] at writes
            cases writes

/-- What a sequence changes after a look at the tree. -/
theorem mem_inspect_bind {look : FileTree → Except FileError α} {next : α → FileOp β} {change : Change}
    (member : change ∈ ((inspect look >>= next) tree).1) :
    ∃ a, look tree = .ok a ∧ change ∈ (next a tree).1 := by
  cases looked : look tree with
  | error e =>
      have result : (inspect look tree).2 = .error e := looked
      rw [bind_of_error result] at member
      cases member
  | ok a =>
      have result : (inspect look tree).2 = .ok a := looked
      rw [bind_of_ok result] at member
      exact ⟨a, rfl, member⟩

/-- All that a copy changes is a file where one can be written. -/
theorem putFile_of_mem_copyFile {change : Change} (member : change ∈ (copyFile source target tree).1) :
    ∃ place flag content executable, writable target tree = .ok (place, flag) ∧
      change = .putFile place content executable := by
  unfold copyFile at member
  obtain ⟨⟨place, entry⟩, -, member⟩ := mem_inspect_bind member
  cases entry with
  | directory => cases member
  | file content executable =>
      obtain ⟨⟨place, flag⟩, canWrite, member⟩ := mem_inspect_bind member
      have putsFiles : Only (fun change => ∃ content, change = .putFile place content executable) (do
          FileOp.change (.putFile place ByteArray.empty executable)
          let content ← inspect (·.readBytes source)
          FileOp.change (.putFile place content executable)) := by
        refine (only_change ?_).bind fun _ => (only_inspect _).bind fun content => only_change ?_
        · exact ⟨_, rfl⟩
        · exact ⟨_, rfl⟩
      obtain ⟨content, rfl⟩ := putsFiles tree change member
      exact ⟨place, flag, content, executable, canWrite, rfl⟩

/-- All that a copy changes is its target, where no directory is. -/
theorem location_of_mem_copyFile {change : Change} (member : change ∈ (copyFile source target tree).1) :
    change.location = tree.location target ∧
      tree.entryAt? (tree.location target) ≠ some .directory := by
  obtain ⟨place, flag, content, executable, canWrite, rfl⟩ := putFile_of_mem_copyFile member
  obtain ⟨rfl, -, noDirectory⟩ := location_of_writable canWrite
  exact ⟨rfl, noDirectory⟩

end FileOp

end AddonIndex
