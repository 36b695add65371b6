import AddonIndex.Proofs.FileTree.Removal
import AddonIndex.Proofs.Indexing.Accounting
import AddonIndex.Proofs.Indexing.Saving
import AddonIndex.Proofs.Indexing.Settlement
import AddonIndex.Proofs.Indexing.Upkeep

/-!
# What is left after an addon

The directory of an archive is noted before the archive is extracted to it. However the work on an addon ends, each
directory that is noted is deleted at its end or reported as one that could not be deleted, and none comes back until
the addon is finished.
-/

namespace AddonIndex.Indexing

open Activity FileTree

variable {work : AddonWork} {tempRoot : Path} {world after : World} {moves : List (Move World)}

/-- Whether a directory is gone, or it was reported why it could not be deleted. -/
def GoneOrReported (report : FileError → Event) (moves : List (Move World)) (after : World) (directory : Path) : Prop :=
  after.tree.pathExists directory = false ∨ ∃ cause, ∃ move ∈ moves, Signals (report cause) move

/-- What is gone stays gone while the files only get fewer. -/
theorem GoneOrReported.mono {report : FileError → Event} {directory : Path} {middle : World}
    {others : List (Move World)} (gone : GoneOrReported report moves middle directory)
    (among : ∀ move ∈ moves, move ∈ others) (shrinks : Shrinks middle.tree after.tree) :
    GoneOrReported report others after directory := by
  rcases gone with gone | ⟨cause, move, member, signals⟩
  · exact .inl (shrinks.not_pathExists gone)
  · exact .inr ⟨cause, move, among move member, signals⟩

/-! ## The cleanup -/

theorem SameFiles.shrinks (same : SameFiles world after) : Shrinks world.tree after.tree := by
  rw [same.tree]
  exact Shrinks.refl _

theorem Works.ready {α : Type} {activity : Run α} {addon : Handle} {result : Option α}
    (works : Works (fun _ => True) activity)
    (execution : Executes Interference activity world moves after result) (ready : Ready addon world) :
    Ready addon after := by
  have keeps : (fun first second => Ready addon first → Ready addon second) world after := by
    apply execution.2.relates
    · exact fun _ ready => ready
    · exact fun _ _ _ first second ready => second (first ready)
    · exact fun _ _ interferes ready => (ready_of_interference (.single interferes) ready).1
    · exact fun move member => (works.of_traces execution.1 move member).ready
  exact keeps ready

namespace AddonWork

/-- The directories that are noted in the turn of an addon: none if the addon is read from a valid entry, and otherwise
those that the account of the extraction tells of. -/
inductive Unpacked (work : AddonWork) (tempRoot : Path) (moves : List (Move World)) : List Path → Prop
  | cached (valid : ∃ move ∈ moves, work.cache.state work.addon.name move.1.tree = .valid) :
      Unpacked work tempRoot moves []
  | extracted {before during later : List (Move World)} {begun ended : World} {answer : Except RunFailure StageStatus}
      (split : moves = before ++ (during ++ later)) (nothing : begun.extracted = [])
      (execution : Executes Interference (work.extract tempRoot) begun during ended (some answer))
      (account : work.ExtractionAccount tempRoot begun during ended answer) :
      Unpacked work tempRoot moves ended.extracted

theorem Unpacked.append_left {directories : List Path} (before : List (Move World))
    (unpacked : work.Unpacked tempRoot moves directories) : work.Unpacked tempRoot (before ++ moves) directories := by
  cases unpacked with
  | cached valid =>
      rcases valid with ⟨move, member, valid⟩
      exact .cached ⟨move, List.mem_append_right _ member, valid⟩
  | @extracted first during later begun ended answer split nothing execution account =>
      rw [split, ← List.append_assoc]
      exact .extracted rfl nothing execution account

theorem Unpacked.append_right {directories : List Path} (later : List (Move World))
    (unpacked : work.Unpacked tempRoot moves directories) : work.Unpacked tempRoot (moves ++ later) directories := by
  cases unpacked with
  | cached valid =>
      rcases valid with ⟨move, member, valid⟩
      exact .cached ⟨move, List.mem_append_left _ member, valid⟩
  | @extracted first during last begun ended answer split nothing execution account =>
      rw [split, List.append_assoc, List.append_assoc]
      exact .extracted rfl nothing execution account

end AddonWork

end AddonIndex.Indexing
