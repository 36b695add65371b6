import AddonIndex.Proofs.FileTree.Failure

/-!
# What is gone stays gone

After a directory was removed its path leads to nothing. While entries are only removed, or files are written over
others, a path that leads to nothing does not come to lead anywhere.
-/

namespace AddonIndex

namespace FileTree

variable {before after tree : FileTree} {path : Path} {place : Location}

/-- Whether a tree has no more places than an earlier one, and no more directories. -/
structure Shrinks (before after : FileTree) : Prop where
  workingDirectory : after.workingDirectory = before.workingDirectory
  directories : ∀ place, after.entryAt? place = some .directory → before.entryAt? place = some .directory
  entries : ∀ place, (after.entryAt? place).isSome → (before.entryAt? place).isSome

namespace Shrinks

theorem refl (tree : FileTree) : Shrinks tree tree :=
  ⟨rfl, fun _ there => there, fun _ there => there⟩

theorem trans {middle : FileTree} (first : Shrinks before middle) (second : Shrinks middle after) :
    Shrinks before after where
  workingDirectory := second.workingDirectory.trans first.workingDirectory
  directories place there := first.directories place (second.directories place there)
  entries place there := first.entries place (second.entries place there)

/-- What a path leads to in a shrunken tree it led to something before. -/
theorem pathExists (shrinks : Shrinks before after) (there : after.pathExists path = true) :
    before.pathExists path = true := by
  rcases pathExists_iff.1 there with ⟨place, entry, found⟩
  apply pathExists_iff.2
  have start : before.start path = after.start path := by
    rw [FileTree.start, FileTree.start, shrinks.workingDirectory]
  rcases find_eq_ok_iff.1 found with ⟨last, resolved, rfl⟩ | ⟨parent, name, slash, resolved, rfl, isEntry, ends⟩
  · rcases find_eq_directory_iff.1 found with ⟨passable, walked⟩
    refine ⟨place, .directory, find_eq_directory_iff.2 ⟨passable, ?_⟩⟩
    rw [start]
    exact walk_of_directories shrinks.directories walked
  · rcases resolve_eq_name_iff.1 resolved with ⟨passable, front, written, notHere, notUp, short, walked, isSlash⟩
    rcases Option.isSome_iff_exists.1 (shrinks.entries _ (Option.isSome_of_eq_some isEntry)) with ⟨earlier, isEarlier⟩
    refine ⟨parent ++ [name], earlier, find_eq_ok_iff.2 (.inr ⟨parent, name, slash, ?_, rfl, isEarlier, ?_⟩)⟩
    · refine resolve_eq_name_iff.2 ⟨passable, front, written, notHere, notUp, short, ?_, isSlash⟩
      rw [start]
      exact walk_of_directories shrinks.directories walked
    · intro hasSlash
      rw [ends hasSlash] at isEntry
      rw [shrinks.directories _ isEntry] at isEarlier
      exact (Option.some.inj isEarlier).symm

theorem not_pathExists (shrinks : Shrinks before after) (gone : before.pathExists path = false) :
    after.pathExists path = false := by
  rw [Bool.eq_false_iff] at gone ⊢
  exact fun there => gone (shrinks.pathExists there)

end Shrinks

/-- A file that is written over another one adds nothing. -/
theorem Puts.shrinks {content : ByteArray} {executable : Bool}
    (puts : Puts place (.file content executable) before after) (there : (before.entryAt? place).isSome) :
    Shrinks before after where
  workingDirectory := puts.workingDirectory
  directories other isDirectory := by
    rw [puts.entryAt?] at isDirectory
    split at isDirectory
    · cases isDirectory
    · exact isDirectory
  entries other isEntry := by
    by_cases here : other = place
    · rwa [here]
    · rwa [puts.entryAt?, if_neg here] at isEntry

end FileTree

namespace FileOp

open FileTree

variable {tree after : FileTree} {path : Path}

theorem removeDirectory_of_error {e : FileError} (failed : tree.resolve path = .error e) :
    removeDirectory path tree = ([], .error e) := by
  unfold removeDirectory
  exact bind_of_error failed

theorem removeDirectory_of_dots {directory : Location} {last : Text}
    (resolved : tree.resolve path = .ok (.dots directory last)) :
    ∃ e, e ≠ .notFound ∧ removeDirectory path tree = ([], .error e) := by
  have looked : (inspect (fun tree : FileTree => tree.resolve path) tree).2 = .ok (.dots directory last) := resolved
  unfold removeDirectory
  rw [bind_of_ok looked]
  simp only
  split
  · exact ⟨.invalidArgument, nofun, rfl⟩
  · split
    · exact ⟨.directoryNotEmpty, nofun, rfl⟩
    · exact ⟨.busy, nofun, rfl⟩

theorem removeDirectory_of_name {parent : Location} {name : Text} {slash : Bool}
    (resolved : tree.resolve path = .ok (.name parent name slash)) :
    removeDirectory path tree =
      match tree.entryAt? (parent ++ [name]) with
      | none => ([], .error .notFound)
      | some (.file _ _) => ([], .error .notADirectory)
      | some .directory =>
          if (tree.below (parent ++ [name])).isEmpty then ([.erase (parent ++ [name])], .ok ())
          else ([], .error .directoryNotEmpty) := by
  have looked : (inspect (fun tree : FileTree => tree.resolve path) tree).2 = .ok (.name parent name slash) := resolved
  have seen : (inspect (fun tree : FileTree => .ok (tree.entryAt? (parent ++ [name]))) tree).2 =
      .ok (tree.entryAt? (parent ++ [name])) := rfl
  unfold removeDirectory
  rw [bind_of_ok looked]
  simp only [inspect, applyAll_nil, List.nil_append]
  rw [bind_of_ok seen]
  simp only [inspect, applyAll_nil, List.nil_append]
  cases tree.entryAt? (parent ++ [name]) with
  | none => rfl
  | some entry =>
      cases entry with
      | file content executable => rfl
      | directory =>
          have isEmpty : (inspect (fun tree : FileTree => .ok (tree.below (parent ++ [name])).isEmpty) tree).2 =
              .ok (tree.below (parent ++ [name])).isEmpty := rfl
          simp only
          rw [bind_of_ok isEmpty]
          simp only [inspect, applyAll_nil, List.nil_append]
          cases (tree.below (parent ++ [name])).isEmpty <;> rfl

end FileOp

end AddonIndex
