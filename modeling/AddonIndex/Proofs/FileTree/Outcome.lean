import AddonIndex.Proofs.FileTree.Growth

/-!
# What successful operations leave

A file that is written or copied is at the location of its path, with all else as
it was. What is removed is at or below the location of its path, and all of that
is gone once a directory was removed.
-/

namespace AddonIndex

namespace FileTree

variable {before after tree : FileTree} {place : Location} {entry : Entry}

/-- Whether a tree differs from an earlier one only in the entry at a location. -/
structure Puts (place : Location) (entry : Entry) (before after : FileTree) : Prop where
  workingDirectory : after.workingDirectory = before.workingDirectory
  entryAt? : ∀ other, after.entryAt? other = if other = place then some entry else before.entryAt? other

theorem puts_putFile (below : place ≠ []) (content : ByteArray) (executable : Bool) :
    Puts place (.file content executable) tree (tree.apply (.putFile place content executable)) where
  workingDirectory := workingDirectory_apply _
  entryAt? other := by
    rw [entryAt?_apply]
    by_cases here : other = place
    · rw [if_pos ⟨here ▸ below, here⟩, if_pos here]
      rfl
    · rw [if_neg fun both => here both.2, if_neg here]

theorem Puts.trans {middle : FileTree} {last : Entry} (first : Puts place entry before middle)
    (second : Puts place last middle after) : Puts place last before after where
  workingDirectory := second.workingDirectory.trans first.workingDirectory
  entryAt? other := by
    rw [second.entryAt?, first.entryAt?]
    by_cases here : other = place
    · rw [if_pos here, if_pos here]
    · rw [if_neg here, if_neg here, if_neg here]

/-- Where a file is put and no directory was, paths to other places lead where they led. -/
theorem Puts.find {path : Path} {found : Location} {content : ByteArray} {executable : Bool}
    (puts : Puts place entry before after) (noDirectory : before.entryAt? place ≠ some .directory)
    (leads : before.find path = .ok (found, .file content executable)) (other : found ≠ place) :
    after.find path = .ok (found, .file content executable) := by
  refine find_of_directories puts.workingDirectory (fun kept there => ?_) leads ?_
  · rw [puts.entryAt?, if_neg]
    · exact there
    · rintro rfl
      exact noDirectory there
  · rw [puts.entryAt?, if_neg other]

theorem Puts.findDirectory {path : Path} {found : Location} (puts : Puts place entry before after)
    (noDirectory : before.entryAt? place ≠ some .directory)
    (leads : before.find path = .ok (found, .directory)) : after.find path = .ok (found, .directory) := by
  obtain ⟨passable, walked⟩ := find_eq_directory_iff.1 leads
  refine find_eq_directory_iff.2 ⟨passable, ?_⟩
  rw [start, puts.workingDirectory, ← start]
  refine walk_of_directories (fun kept there => ?_) walked
  rw [puts.entryAt?, if_neg]
  · exact there
  · rintro rfl
    exact noDirectory there

end FileTree

namespace FileOp

open FileTree

variable {tree after : FileTree} {path source target : Path} {place : Location}

/-! ## Writing and copying -/

/-- A file can be written at the location of its path, where no directory is. -/
theorem location_of_writable {executable : Bool} (canWrite : writable path tree = .ok (place, executable)) :
    place = tree.location path ∧ place ≠ [] ∧ tree.entryAt? place ≠ some .directory := by
  obtain ⟨parent, name, resolved, rfl, absent⟩ := writable_eq_ok_iff.1 canWrite
  refine ⟨location_of_resolve resolved, by simp, ?_⟩
  rcases absent with ⟨absent, -⟩ | ⟨content, there⟩
  · rw [absent]
    exact nofun
  · rw [there]
    exact nofun

theorem puts_of_writeBytes {content : ByteArray}
    (written : (writeBytes path content).run tree = (after, .ok ())) :
    ∃ executable, writable path tree = .ok (tree.location path, executable) ∧
      Puts (tree.location path) (.file content executable) tree after := by
  rw [run_eq, writeBytes_eq] at written
  cases canWrite : writable path tree with
  | error e =>
      rw [canWrite] at written
      cases written
  | ok found =>
      obtain ⟨place, executable⟩ := found
      obtain ⟨rfl, below, -⟩ := location_of_writable canWrite
      rw [canWrite] at written
      cases written
      exact ⟨executable, rfl, (puts_putFile below _ _).trans (puts_putFile below _ _)⟩

/-- A file that was written is found with what was written. -/
theorem find_of_writeBytes {content : ByteArray}
    (written : (writeBytes path content).run tree = (after, .ok ())) :
    ∃ executable, after.find path = .ok (tree.location path, .file content executable) := by
  obtain ⟨executable, canWrite, puts⟩ := puts_of_writeBytes written
  obtain ⟨-, -, noDirectory⟩ := location_of_writable canWrite
  obtain ⟨parent, name, resolved, isPlace, -⟩ := writable_eq_ok_iff.1 canWrite
  obtain ⟨passable, front, isWritten, notHere, notUp, short, walked, noSlash⟩ := resolve_eq_name_iff.1 resolved
  refine ⟨executable, find_eq_file_iff.2 ⟨passable, fun slash => ?_, front, name, isWritten, notHere, notUp,
    short, parent, ?_, isPlace, ?_⟩⟩
  · rw [slash] at noSlash
    cases noSlash
  · rw [start, puts.workingDirectory, ← start]
    refine walk_of_directories (fun place there => ?_) walked
    rw [puts.entryAt?, if_neg]
    · exact there
    · rintro rfl
      exact noDirectory there
  · rw [puts.entryAt?, if_pos rfl]

/-- A copy has the content of its source, unless it is the source itself. -/
theorem puts_of_copyFile (copied : (copyFile source target).run tree = (after, .ok ())) :
    ∃ found content executable flag, tree.find source = .ok (found, .file content executable) ∧
      writable target tree = .ok (tree.location target, flag) ∧
      (found ≠ tree.location target → Puts (tree.location target) (.file content executable) tree after) := by
  unfold copyFile at copied
  obtain ⟨⟨found, entry⟩, leads, copied⟩ := run_inspect_bind_eq_ok_iff.1 copied
  cases entry with
  | directory => cases copied
  | file content executable =>
      obtain ⟨⟨place, flag⟩, canWrite, copied⟩ := run_inspect_bind_eq_ok_iff.1 copied
      obtain ⟨rfl, below, noDirectory⟩ := location_of_writable canWrite
      obtain ⟨read, isRead, copied⟩ := run_inspect_bind_eq_ok_iff.1 (run_change_bind_eq_ok_iff.1 copied)
      cases copied
      refine ⟨found, content, executable, flag, leads, canWrite, fun other => ?_⟩
      have first := @puts_putFile tree _ below ByteArray.empty executable
      have still := first.find noDirectory leads other
      have same : read = content := by
        rw [readBytes, still] at isRead
        cases isRead
        rfl
      rw [same]
      exact first.trans (puts_putFile below _ _)

/-! ## Removing -/

/-- A directory is erased, or nothing is done. -/
theorem removeDirectory_cases (path : Path) (tree : FileTree) :
    (∃ e, removeDirectory path tree = ([], .error e)) ∨
      removeDirectory path tree = ([.erase (tree.location path)], .ok ()) := by
  unfold removeDirectory
  cases resolved : tree.resolve path with
  | error e =>
      have looked : (inspect (fun tree : FileTree => tree.resolve path) tree).2 = .error e := resolved
      exact .inl ⟨e, bind_of_error looked⟩
  | ok found =>
      have looked : (inspect (fun tree : FileTree => tree.resolve path) tree).2 = .ok found := resolved
      rw [bind_of_ok looked]
      cases found with
      | dots directory last =>
          simp only
          split
          · exact .inl ⟨_, rfl⟩
          · split
            · exact .inl ⟨_, rfl⟩
            · exact .inl ⟨_, rfl⟩
      | name parent name slash =>
          have seen : (inspect (fun tree : FileTree => .ok (tree.entryAt? (parent ++ [name]))) tree).2 =
              .ok (tree.entryAt? (parent ++ [name])) := rfl
          simp only [inspect, applyAll_nil]
          rw [bind_of_ok seen, ← location_of_resolve resolved]
          simp only [inspect, applyAll_nil]
          cases tree.entryAt? (parent ++ [name]) with
          | none => exact .inl ⟨_, rfl⟩
          | some entry =>
              cases entry with
              | file content executable => exact .inl ⟨_, rfl⟩
              | directory =>
                  simp only
                  have isEmpty : (inspect (fun tree : FileTree =>
                      .ok (tree.below (parent ++ [name])).isEmpty) tree).2 =
                      .ok (tree.below (parent ++ [name])).isEmpty := rfl
                  rw [bind_of_ok isEmpty]
                  simp only [inspect, applyAll_nil]
                  cases (tree.below (parent ++ [name])).isEmpty with
                  | true => exact .inr rfl
                  | false => exact .inl ⟨_, rfl⟩

/-- What a removal erases is at or below the location of its path. -/
theorem erases_of_mem_removeTree {change : Change} (member : change ∈ (removeTree path tree).1) :
    ∃ below, change = .erase (tree.location path ++ below) := by
  unfold removeTree at member
  cases found : tree.find path with
  | error e =>
      have looked : (inspect (fun tree : FileTree => tree.find path) tree).2 = .error e := found
      rw [bind_of_error looked] at member
      cases member
  | ok item =>
      have looked : (inspect (fun tree : FileTree => tree.find path) tree).2 = .ok item := found
      rw [bind_of_ok looked] at member
      obtain ⟨place, entry⟩ := item
      obtain rfl := find_location found
      cases entry with
      | file content executable => cases member
      | directory =>
          have contents : (removeContents (tree.location path) tree).2 = .ok () := rfl
          simp only [inspect, List.nil_append, applyAll_nil] at member
          rw [bind_of_ok contents] at member
          rcases List.mem_append.1 member with inContents | last
          · obtain ⟨item, -, rfl⟩ := List.mem_map.1 inContents
            exact ⟨item.1, rfl⟩
          · refine ⟨[], ?_⟩
            rw [List.append_nil]
            -- What comes after the attempt to remove the directory itself changes nothing.
            rcases removeDirectory_cases path (tree.applyAll (removeContents (tree.location path) tree).1)
              with ⟨e, failed⟩ | removed
            · have tried : (attempt (removeDirectory path)
                  (tree.applyAll (removeContents (tree.location path) tree).1)).2 = .ok (.error e) := by
                rw [attempt, failed]
              rw [bind_of_ok tried, attempt, failed] at last
              simp only [List.nil_append] at last
              cases e <;> cases last
            · have tried : (attempt (removeDirectory path)
                  (tree.applyAll (removeContents (tree.location path) tree).1)).2 = .ok (.ok ()) := by
                rw [attempt, removed]
              rw [bind_of_ok tried, attempt, removed] at last
              simpa [pure, FileOp.pure] using last

/-- A removal leaves all that is not at or below the location of its path. -/
theorem entryAt?_removeTree (path : Path) (tree : FileTree) {other : Location}
    (elsewhere : ¬ tree.location path <+: other) :
    ((removeTree path).run tree).1.entryAt? other = tree.entryAt? other := by
  rw [run_eq]
  refine entryAt?_applyAll_of_untouched fun change member touches => ?_
  obtain ⟨below, rfl⟩ := erases_of_mem_removeTree member
  exact elsewhere ⟨below, touches⟩

/-- Only directories are removed with what is below them. -/
theorem find_of_removeTree (removed : (removeTree path).run tree = (after, .ok ())) :
    tree.find path = .ok (tree.location path, .directory) := by
  unfold removeTree at removed
  obtain ⟨⟨place, entry⟩, found, removed⟩ := run_inspect_bind_eq_ok_iff.1 removed
  obtain rfl := find_location found
  cases entry with
  | directory => exact found
  | file content executable => cases removed

/-- A directory is emptied by its removal, also if it cannot be removed itself. -/
theorem entryAt?_below_removeTree {place below : Location}
    (found : tree.find path = .ok (place, .directory)) (nonempty : below ≠ []) :
    ((removeTree path).run tree).1.entryAt? (place ++ below) = none := by
  rw [run_eq]
  have somewhere : place ++ below ≠ [] := List.append_ne_nil_of_right_ne_nil _ nonempty
  rcases Classical.em (∃ change ∈ (removeTree path tree).1, change.location = place ++ below)
    with ⟨change, member, touches⟩ | untouched
  · obtain ⟨last, lastMember, -, left⟩ := exists_entryAt?_applyAll tree somewhere member touches
    obtain ⟨place, rfl⟩ := only_removeTree path tree last lastMember
    exact left
  · rw [entryAt?_applyAll_of_untouched fun change member touches => untouched ⟨change, member, touches⟩]
    by_contra there
    obtain ⟨entry, there⟩ := Option.ne_none_iff_exists'.1 there
    have listed : (below, entry) ∈ tree.below place :=
      mem_below_iff.2 ⟨nonempty, mem_entries_of_entryAt? somewhere there⟩
    exact untouched ⟨_, erase_mem_removeTree found listed, rfl⟩

/-- Nothing is left below a directory that was removed. -/
theorem entryAt?_of_removeTree (removed : (removeTree path).run tree = (after, .ok ()))
    {below : Location} (nonempty : below ≠ []) : after.entryAt? (tree.location path ++ below) = none := by
  have emptied := entryAt?_below_removeTree (find_of_removeTree removed) nonempty
  rwa [removed] at emptied

end FileOp

end AddonIndex
