import AddonIndex.Proofs.Indexing.Accounting
import AddonIndex.Proofs.Indexing.Answers
import AddonIndex.Proofs.Indexing.CopyOrder
import Mathlib.Data.Bool.Count

/-!
# What a stage adds to the counters

Units may be counted in any order. So the counters after a stage depend on nothing but how many units it lists and how
many of them fail, each of which is reported as an error.
-/

namespace AddonIndex.Indexing

open Activity FileTree

variable {γ : Type} {addon : Handle} {job : Job γ} {world after : World} {moves : List (Move World)}
  {record : Tally → Bool → Tally} {front rest entries : List (Posting γ)} {entry : Posting γ}

/-! ## Counting in any order -/

/-- The counters after so many units, of which so many fail. -/
def counted (record : Tally → Bool → Tally) (units failures : Nat) (tally : Tally) : Tally :=
  (List.replicate failures false ++ List.replicate (units - failures) true).foldl record tally

theorem errors_of_reported {word : List Event} (reported : after.channel.reported = world.channel.reported ++ word) :
    after.errors = world.errors + word.countP Event.isError := by
  rw [World.errors, reported, List.countP_append]
  rfl

section Accounts

variable {units : List γ} {shares : List (Share γ)} {others word : List Event}
  {arrangements : List (FileTree × FileTree)}

/-- If no work on a unit aborts the worker, none is aborted. -/
theorem Accounted.unbroken {waiting : List γ}
    (account : Accounted job addon units shares waiting others arrangements word world moves after)
    (never : ∀ unit world, job.result unit world ≠ none) : ∀ share ∈ shares, share.isBroken = false := by
  intro share member
  rcases account.steps with ⟨worked, perm, steps, -, -, areWorked, shown, -⟩
  cases ended : share.ending with
  | completed => rw [Share.isBroken, ended]; rfl
  | stopped unit rest => rw [Share.isBroken, ended]; rfl
  | broken unit rest =>
      have inWorked : (unit, none) ∈ worked := by
        apply perm.mem_iff.2
        apply List.mem_flatMap.2
        refine ⟨share, member, List.mem_append_right _ ?_⟩
        rw [ended]
        exact List.mem_singleton_self _
      rw [← areWorked] at inWorked
      rcases List.mem_map.1 inWorked with ⟨step, inSteps, isStep⟩
      have result := (shown step inSteps).2
      rw [isStep] at result
      exact absurd result (never _ _)

end Accounts

/-! ## What is looked at -/

/-- Entries that concern no units, and change no files, leave the files and the directories. -/
theorem Booked.sameFiles (booked : Booked job addon entries world moves after)
    (asides : ∀ entry ∈ entries, entry.isAside = true) (unarranged : entries.filterMap Posting.arranged? = []) :
    SameFiles world after := by
  rcases booked.enters with ⟨labels, enters, rfl⟩
  have still : ∀ move ∈ moves, Still move := by
    rcases stepsOn_of_enters enters with ⟨steps, rest, perm, areWorked, -, others⟩
    rw [filterMap_asides asides fun _ => worked?_aside] at areWorked
    rw [List.map_eq_nil_iff.1 areWorked] at perm
    intro move member
    rcases others move (perm.mem_iff.1 member) with isStill | arranged
    · exact isStill
    · rw [unarranged] at arranged
      cases arranged
  constructor
  · apply @Chain.relates _ _ _ _ _ (fun before later : World => later.tree = before.tree) _ _ _ _ booked.chain
    · exact fun _ => rfl
    · exact fun _ _ _ first second => second.trans first
    · exact fun _ _ interferes => (SameFiles.of_interference interferes).tree
    · exact fun move member => (still move member).tree
  · rcases ledger_of_chain enters booked.chain booked.ready with ⟨-, posted, -⟩
    have extracted := congrArg Ledger.extracted posted
    rw [extracted_postAll, filterMap_asides asides fun _ => noted?_aside, List.append_nil] at extracted
    exact extracted

section Stages

variable {work : AddonWork} {tempRoot : Path}

namespace AddonWork

/-- The archives of an addon, if it has a directory for them, or why they cannot be listed. -/
def listArchives (work : AddonWork) (tree : FileTree) : Except RunFailure (Option (List Path)) :=
  match archiveContainer? work.addon.directory tree with
  | .error cause => .error (.addonDirectoryUnreadable work.addon.directory cause)
  | .ok none => .ok none
  | .ok (some container) =>
      match archives container tree with
      | .error cause => .error (.addonDirectoryUnreadable container cause)
      | .ok files => .ok (some files)

end AddonWork

end Stages

end AddonIndex.Indexing
