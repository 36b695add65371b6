import AddonIndex.Proofs.FileTree.Confluence
import AddonIndex.Proofs.FileTree.Removal
import AddonIndex.Proofs.Reference.Neighbour

/-!
# Directories side by side are removed in any order

A directory is removed with all that is below it. If the way to it does not lead through it, this succeeds wherever the
directory is found. So directories that stand side by side do not see each other removed.
-/

namespace AddonIndex

namespace FileOp

open FileTree Location

variable {base tree first second : FileTree} {origin directory other : Path} {directories rest : List Path}
  {name : Text} {place : Location}

/-! ## One directory -/

/-- What is removed from a directory is all that is below it, and nothing else. -/
theorem entryAt?_removeContents (tree : FileTree) (place passed : Location) :
    (tree.applyAll (removeContents place tree).1).entryAt? passed =
      if place <+: passed ∧ passed ≠ place then none else tree.entryAt? passed := by
  split
  · rename_i below
    rcases below with ⟨⟨relative, rfl⟩, differs⟩
    have nonempty : relative ≠ [] := by
      rintro rfl
      exact differs (List.append_nil _)
    have somewhere := List.append_ne_nil_of_right_ne_nil place nonempty
    rcases Classical.em (∃ change ∈ (removeContents place tree).1, change.location = place ++ relative)
      with ⟨change, member, touches⟩ | untouched
    · rcases exists_entryAt?_applyAll tree somewhere member touches with ⟨last, isLast, -, left⟩
      rcases only_removeContents place tree last isLast with ⟨_, rfl⟩
      exact left
    · rw [entryAt?_applyAll_of_untouched fun change member touches => untouched ⟨change, member, touches⟩]
      by_contra there
      rcases Option.ne_none_iff_exists'.1 there with ⟨entry, there⟩
      have listed : (relative, entry) ∈ tree.below place :=
        mem_below_iff.2 ⟨nonempty, mem_entries_of_entryAt? somewhere there⟩
      exact untouched ⟨_, List.mem_map.2 ⟨_, List.mem_reverse.2 listed, rfl⟩, rfl⟩
  · rename_i notBelow
    apply entryAt?_applyAll_of_untouched
    intro change member touches
    rcases List.mem_map.1 member with ⟨⟨relative, entry⟩, listed, rfl⟩
    have nonempty := (mem_below_iff.1 (List.mem_reverse.1 listed)).1
    apply notBelow
    rw [← touches]
    refine ⟨List.prefix_append _ _, fun same => nonempty ?_⟩
    exact List.append_cancel_left (same.trans (List.append_nil _).symm)

/-- Where nothing is found below a place nothing is listed there. -/
theorem isEmpty_below (distinct : tree.Distinct)
    (nothing : ∀ relative, relative ≠ [] → tree.entryAt? (place ++ relative) = none) :
    (tree.below place).isEmpty = true := by
  rw [List.isEmpty_iff, List.eq_nil_iff_forall_not_mem]
  rintro ⟨relative, entry⟩ listed
  rcases mem_below_iff.1 listed with ⟨nonempty, inEntries⟩
  have isEntry := (distinct.mem_entries_iff (List.append_ne_nil_of_right_ne_nil place nonempty)).1 inEntries
  rw [nothing relative nonempty] at isEntry
  cases isEntry

/-- A directory is removed with success if the way to it does not lead through it. -/
theorem run_removeTree_of_find (distinct : tree.Distinct) (isName : Path.IsName name)
    (avoids : tree.Avoids origin place) (found : tree.find (origin.join name) = .ok (place, .directory)) :
    ((removeTree (origin.join name)).run tree).2 = .ok () ∧
      ((removeTree (origin.join name)).run tree).1.entryAt? place = none := by
  have looked : (inspect (fun tree : FileTree => tree.find (origin.join name)) tree).2 = .ok (place, .directory) :=
    found
  have contents : (removeContents place tree).2 = .ok () := rfl
  rcases (find_join_name_iff isName).1 found with ⟨passable, short, parent, walked, rfl, there⟩
  have emptied := entryAt?_removeContents tree (parent ++ [name])
  generalize left : tree.applyAll (removeContents (parent ++ [name]) tree).1 = middle at emptied
  have resolved : middle.resolve (origin.join name) = .ok (.name parent name false) := by
    have start : middle.start origin = tree.start origin := by
      rw [FileTree.start, FileTree.start, ← left, workingDirectory_applyAll]
    refine (resolve_join_name_iff isName).2 ⟨passable, short, ?_, rfl, rfl⟩
    rw [start, ← walked]
    apply walk_congr
    intro passed member
    rw [emptied, if_neg fun below => avoids passed member below.1]
  have isDirectory : middle.entryAt? (parent ++ [name]) = some .directory := by
    rw [emptied, if_neg fun below => below.2 rfl, there]
  have isEmpty : (middle.below (parent ++ [name])).isEmpty = true := by
    apply isEmpty_below (left ▸ distinct.applyAll _)
    intro relative nonempty
    have below : parent ++ [name] ++ relative ≠ parent ++ [name] :=
      fun same => nonempty (List.append_cancel_left (same.trans (List.append_nil _).symm))
    rw [emptied, if_pos ⟨List.prefix_append _ _, below⟩]
  have removed : removeDirectory (origin.join name) middle = ([.erase (parent ++ [name])], .ok ()) := by
    rw [removeDirectory_of_name resolved, isDirectory]
    exact if_pos isEmpty
  have tried : (attempt (removeDirectory (origin.join name)) middle).2 = .ok (.ok ()) := by
    rw [attempt, removed]
  rw [run_eq]
  unfold removeTree
  rw [bind_of_ok looked]
  simp only [inspect, List.nil_append, applyAll_nil]
  rw [bind_of_ok contents, left, bind_of_ok tried, attempt, removed]
  refine ⟨rfl, ?_⟩
  rw [applyAll_append, left]
  change (middle.apply (.erase (parent ++ [name]))).entryAt? (parent ++ [name]) = none
  rw [entryAt?_apply, if_pos ⟨by simp, rfl⟩]
  rfl

/-! ## Directories side by side -/

/-- Whether directories that stand side by side are still to be removed. -/
structure Removable (base : FileTree) (origin : Path) (directories : List Path) (tree : FileTree) : Prop where
  nodup : directories.Nodup
  areNamed : ∀ directory ∈ directories, ∃ stem, Path.IsName stem ∧ directory = origin.join stem
  distinct : tree.Distinct
  named : tree.Named
  workingDirectory : tree.workingDirectory = base.workingDirectory

theorem removeTree_of_error {e : FileError} (failed : tree.find directory = .error e) :
    removeTree directory tree = ([], .error e) := by
  unfold removeTree
  exact bind_of_error failed

theorem removeTree_of_file {content : ByteArray} {executable : Bool}
    (found : tree.find directory = .ok (place, .file content executable)) :
    removeTree directory tree = ([], .error .notADirectory) := by
  unfold removeTree
  rw [bind_of_ok (show (inspect (fun tree : FileTree => tree.find directory) tree).2 = _ from found)]
  rfl

/-- A directory is removed alike in trees in which the same is found of it. -/
theorem repeats_removeTree (distinct : first.Distinct) (distinctSecond : second.Distinct) (isName : Path.IsName name)
    (avoids : first.Avoids origin (first.location origin ++ [name]))
    (workingDirectory : second.workingDirectory = first.workingDirectory)
    (same : second.find (origin.join name) = first.find (origin.join name)) :
    Repeats (fun tree => (removeTree (origin.join name)).run tree) first second := by
  cases found : first.find (origin.join name) with
  | error e =>
      rw [found] at same
      constructor
      · rw [run_eq, run_eq, removeTree_of_error found, removeTree_of_error same]
      · intro place agree
        rw [run_eq, run_eq, removeTree_of_error found, removeTree_of_error same]
        exact agree
  | ok item =>
      rcases item with ⟨place, _ | ⟨content, executable⟩⟩
      · rw [found] at same
        have isPlace := (find_location found).trans (location_join_name origin isName)
        rw [← isPlace] at avoids
        rcases run_removeTree_of_find distinct isName avoids found with ⟨answer, gone⟩
        rcases run_removeTree_of_find distinctSecond isName (avoids.start_congr workingDirectory) same with
          ⟨answerSecond, goneSecond⟩
        refine ⟨answerSecond.trans answer.symm, fun passed agree => ?_⟩
        by_cases below : place <+: passed
        · rcases below with ⟨relative, rfl⟩
          by_cases here : relative = []
          · rw [here, List.append_nil, gone, goneSecond]
          · rw [entryAt?_below_removeTree found here, entryAt?_below_removeTree same here]
        · have outside := below
          rw [find_location found] at outside
          rw [find_location same] at below
          rw [entryAt?_removeTree _ _ outside, entryAt?_removeTree _ _ below]
          exact agree
      · rw [found] at same
        constructor
        · rw [run_eq, run_eq, removeTree_of_file found, removeTree_of_file same]
        · intro place agree
          rw [run_eq, run_eq, removeTree_of_file found, removeTree_of_file same]
          exact agree

/-- Directories that stand side by side can be removed in any order. -/
theorem independent_removals (avoids : ∀ stem, base.Avoids origin (base.location origin ++ [stem])) :
    Independent (fun directory tree => (removeTree directory).run tree)
      (fun directory place => base.location directory <+: place) (fun _ => False) (Removable base origin) where
  distinct removable := removable.distinct
  perm removable perm := { removable with
    nodup := perm.nodup_iff.1 removable.nodup
    areNamed := fun directory member => removable.areNamed directory (perm.mem_iff.2 member) }
  relist removable same := { removable with
    distinct := same.distinct_right
    named := same.named removable.named
    workingDirectory := same.workingDirectory.trans removable.workingDirectory }
  step {directory rest tree} removable := by
    rcases removable with ⟨nodup, areNamed, distinct, named, workingDirectory⟩
    refine ⟨nodup.of_cons, (List.forall_mem_cons.1 areNamed).2, distinct.applyAll _,
      (orderly_removeTree directory).named tree named, ?_⟩
    exact (workingDirectory_applyAll _ _).trans workingDirectory
  bounds {directory rest tree} removable := by
    refine ⟨(orderly_removeTree directory).named tree removable.named, ?_, fun place => ?_⟩
    · exact workingDirectory_applyAll _ _
    by_cases isOwn : base.location directory <+: place
    · exact .inr (.inl isOwn)
    · rw [← location_congr removable.workingDirectory] at isOwn
      exact .inl (entryAt?_removeTree directory tree isOwn)
  apart {one other rest tree} removable place isOne isOther := by
    rcases removable.areNamed one List.mem_cons_self with ⟨stem, isName, rfl⟩
    rcases removable.areNamed other (List.mem_cons_of_mem _ List.mem_cons_self) with ⟨otherStem, isOtherName, rfl⟩
    rw [location_join_name _ isName] at isOne
    rw [location_join_name _ isOtherName] at isOther
    apply List.ne_of_not_mem_cons (List.nodup_cons.1 removable.nodup).1
    rw [eq_of_isPrefix_concat isOne isOther]
  offWay _ _ _ := id
  repeats {one other rest tree} removable := by
    rcases removable.areNamed one List.mem_cons_self with ⟨stem, isName, rfl⟩
    rcases removable.areNamed other (List.mem_cons_of_mem _ List.mem_cons_self) with ⟨otherStem, isOtherName, rfl⟩
    have workingDirectory := workingDirectory_applyAll tree (removeTree (origin.join stem) tree).1
    apply repeats_removeTree removable.distinct (removable.distinct.applyAll _) isOtherName _ workingDirectory
    · -- The way to the other directory does not lead through this one.
      have past : tree.Avoids (origin.join otherStem) (tree.location (origin.join stem)) := by
        rw [← Path.descend_singleton, location_congr removable.workingDirectory, location_join_name _ isName]
        apply ((avoids stem).start_congr removable.workingDirectory).descend
        · exact List.forall_mem_singleton.2 isOtherName
        · intro front nonempty isPrefix within
          rcases (List.prefix_concat_iff.1 (show front <+: [] ++ [otherStem] from isPrefix)) with rfl | empty
          · rw [location_congr removable.workingDirectory, List.nil_append] at within
            apply List.ne_of_not_mem_cons (List.nodup_cons.1 removable.nodup).1
            rw [eq_of_isPrefix_concat within List.prefix_rfl]
          · exact nonempty (List.prefix_nil.1 empty)
      apply past.find_eq workingDirectory
      exact fun passed outside => entryAt?_removeTree _ _ outside
    · rw [location_congr removable.workingDirectory]
      exact (avoids otherStem).start_congr removable.workingDirectory
  same {directory rest first second} _ same := by
    rcases agrees_removeTree directory first second same with ⟨answer, trees⟩
    exact ⟨answer, fun place _ => trees.entryAt? place⟩

end FileOp

end AddonIndex
