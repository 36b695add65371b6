import AddonIndex.Proofs.Reference.Marking

/-!
# Entries under construction

From its preparation on an entry has a marker that tells whether it is complete. Whatever is copied into it, and
whatever of that fails, the marker stays as it is until the entry is marked as complete: no name of a directory leads a
copy to the place of the marker, not even the name of the marker. So an entry that was prepared is invalid at first and
valid once it is marked, unless its path is empty and leads to nothing.
-/

namespace AddonIndex

open FileOp FileTree Reference

variable {tree : FileTree} {source target : Path}

theorem Path.text_join_eq_nil_iff {base : Path} {below : Text} :
    (base.join below).text = [] ↔ base.text = [] ∧ below = [] := by
  unfold join
  split
  · rename_i slash
    refine ⟨?_, And.right⟩
    rintro rfl
    cases slash
  · split
    · exact List.append_eq_nil_iff
    · rename_i notEnded
      refine ⟨fun empty => absurd empty (by simp), fun both => absurd (.inl ?_) notEnded⟩
      rw [both.1]
      rfl

theorem FileTree.isDirectory_of_text_nil {path : Path} (empty : path.text = []) : tree.isDirectory path = false := by
  rw [Bool.eq_false_iff, ne_eq, isDirectory_iff]
  rintro ⟨place, found⟩
  exact (find_eq_directory_iff.1 found).1.1 empty

/-- No file is written to a path that ends with a slash. -/
theorem FileOp.not_writable_of_slash {place : Location} {executable : Bool} (slash : target.text.getLast? = some '/') :
    writable target tree ≠ .ok (place, executable) := by
  intro canWrite
  rcases writable_eq_ok_iff.1 canWrite with ⟨parent, name, resolved, -⟩
  rcases resolve_eq_name_iff.1 resolved with ⟨-, front, -, -, -, -, -, noSlash⟩
  rw [slash] at noSlash
  cases noSlash

theorem FileOp.copyFile_of_slash (slash : target.text.getLast? = some '/') :
    (copyFile source target tree).1 = [] := by
  apply List.eq_nil_iff_forall_not_mem.2
  intro change member
  unfold copyFile at member
  rcases mem_inspect_bind member with ⟨⟨_, entry⟩, -, member⟩
  cases entry with
  | directory => cases member
  | file content executable =>
      rcases mem_inspect_bind member with ⟨⟨place, flag⟩, canWrite, -⟩
      exact absurd canWrite (not_writable_of_slash slash)

namespace ReferenceCache

variable {cache : ReferenceCache} {addon : Text} {begun : FileTree} {entry directory : Path} {file : SourceFile}
  {valid : Bool}

/-! ## What can be copied -/

/-- Whatever directory a file was found in to be kept, there are names that lead to it from there. -/
theorem exists_names_of_found (formed : tree.WellFormed) (member : file ∈ referenceFiles directory tree) :
    ∃ names, file.relative = Text.joinWith ['/'] names ∧ ∀ name ∈ names, Path.IsName name := by
  rcases List.mem_filterMap.1 member with ⟨source, found, relative⟩
  rw [findFiles, Path.sort, List.mem_mergeSort, List.mem_filter] at found
  have below := found.1
  have leads : ∃ names, source = directory.descend names ∧ (∀ name ∈ names, Path.IsName name) ∧
      directory.text ≠ [] := by
    unfold filesBelow at below
    split at below
    · cases below
    · rename_i isFile
      obtain rfl := List.mem_singleton.1 below
      exact ⟨[], rfl, List.forall_mem_nil _, (find_eq_file_iff.1 isFile).1.1⟩
    · rename_i place isDirectory
      rcases List.mem_filterMap.1 below with ⟨⟨names, entry⟩, listed, same⟩
      rcases mem_below_iff.1 listed with ⟨-, inEntries⟩
      have areNames := formed.named _ inEntries
      cases entry with
      | directory => cases same
      | file content executable =>
          cases same
          exact ⟨names, rfl, fun name member => areNames name (List.mem_append_right _ member),
            (find_eq_directory_iff.1 isDirectory).1.1⟩
  rcases leads with ⟨names, rfl, areNames, nonempty⟩
  rw [Path.relativeTo?_descend_of_text nonempty areNames] at relative
  cases relative
  exact ⟨names, rfl, areNames⟩

/-- The target of a file that was found in its own place ends with a slash. -/
theorem getLast?_target {name : Text} (isName : Path.IsName name) :
    (ReferenceCache.target entry name ⟨source, Text.joinWith ['/'] []⟩).text.getLast? = some '/' := by
  have joined : (entry.join name).join [] = ⟨(entry.join name).text ++ ['/']⟩ :=
    (Path.endsInName_join entry isName).join_eq nofun
  change ((entry.join name).join []).text.getLast? = some '/'
  rw [joined]
  exact List.getLast?_concat

/-- A copy that succeeds ends with that of the file. -/
theorem copyFile_of_copy {name : Text} {after : FileTree} {reached : Path}
    (copied : (ReferenceCache.copy entry name file).run tree = (after, .ok reached)) :
    ∃ made, (copyFile file.source (ReferenceCache.target entry name file)).run made = (after, .ok ()) := by
  unfold ReferenceCache.copy at copied
  cases isParent : (ReferenceCache.target entry name file).parent? with
  | none =>
      simp only [isParent] at copied
      rcases run_bind_eq_ok_iff.1 copied with ⟨⟨⟩, _, copies, copied⟩
      rw [run_pure] at copied
      cases copied
      exact ⟨tree, copies⟩
  | some parent =>
      simp only [isParent] at copied
      rcases run_bind_eq_ok_iff.1 copied with ⟨⟨⟩, made, -, copied⟩
      rcases run_bind_eq_ok_iff.1 copied with ⟨⟨⟩, _, copies, copied⟩
      rw [run_pure] at copied
      cases copied
      exact ⟨made, copies⟩

/-- What can be done to an entry: a file is copied into it, below a name, or it is marked as complete. -/
inductive EntryStep
  | copy (directory : Text) (file : SourceFile)
  | mark
deriving DecidableEq

namespace EntryStep

/-- The files after a step, whether it succeeds or fails. -/
def after (entry : Path) : EntryStep → FileTree → FileTree
  | copy directory file, tree => ((ReferenceCache.copy entry directory file).run tree).1
  | mark, tree => ((markValid entry).run tree).1

/-- Whether a file that is copied was found, at some time, in some directory, and goes below a single name. -/
def Sound : EntryStep → Prop
  | copy directory file => Path.IsName directory ∧
      ∃ origin tree, FileTree.WellFormed tree ∧ file ∈ referenceFiles origin tree
  | mark => True

end EntryStep

/-- The files after steps one after another. -/
def fill (entry : Path) (steps : List EntryStep) (tree : FileTree) : FileTree :=
  steps.foldl (fun tree step => step.after entry tree) tree

/-! ## The marker -/

/-- A copy of a file that was found does not touch the marker. -/
theorem HasMarker.copy {name : Text} (hasMarker : cache.HasMarker addon valid tree)
    (sound : (EntryStep.copy name file).Sound) :
    cache.HasMarker addon valid ((ReferenceCache.copy (cache.entry addon) name file).run tree).1 := by
  rcases sound with ⟨isName, origin, found, formed, member⟩
  rcases exists_names_of_found formed member with ⟨names, relative, areNames⟩
  rcases file with ⟨source, _⟩
  obtain rfl := relative
  have keeps : KeepsAt (cache.markerPlace addon tree) tree
      ((ReferenceCache.copy (cache.entry addon) name ⟨source, Text.joinWith ['/'] names⟩).run tree).1 := by
    cases names with
    | nil =>
        -- The origin was a file itself, so the target ends with a slash, at the place of the marker perhaps.
        apply keepsAt_copy_of_copyFile
        intro made _
        rw [run_eq, copyFile_of_slash (getLast?_target isName)]
        exact .refl made
    | cons first rest =>
        apply keepsAt_copy
        rw [location_target tree _ source isName areNames]
        intro same
        have length := congrArg List.length (List.append_cancel_left same)
        simp at length
  exact hasMarker.of_keepsAt keeps

/-- A step leaves a marker, which tells that the entry is complete if it did so before or the step is to mark it. -/
theorem HasMarker.step {step : EntryStep} (hasMarker : cache.HasMarker addon valid tree) (sound : step.Sound) :
    cache.HasMarker addon (valid || step == .mark) (step.after (cache.entry addon) tree) := by
  cases step with
  | copy name file =>
      rw [show (EntryStep.copy name file == .mark) = false from rfl, Bool.or_false]
      exact hasMarker.copy sound
  | mark =>
      rcases exists_of_markValid hasMarker with ⟨marked, marks, isMarked⟩
      rw [show (EntryStep.mark == .mark) = true from rfl, Bool.or_true, EntryStep.after, marks]
      exact isMarked

theorem HasMarker.fill {steps : List EntryStep} (hasMarker : cache.HasMarker addon valid tree)
    (sound : ∀ step ∈ steps, step.Sound) :
    cache.HasMarker addon (valid || steps.contains .mark) (fill (cache.entry addon) steps tree) := by
  induction steps generalizing valid tree with
  | nil =>
      rw [List.contains_nil, Bool.or_false]
      exact hasMarker
  | cons step rest ih =>
      have next := ih (hasMarker.step (sound step List.mem_cons_self)) fun other member =>
        sound other (List.mem_cons_of_mem _ member)
      rw [List.contains_cons, Bool.beq_comm, ← Bool.or_assoc]
      exact next

/-! ## The state -/

/-- The marker tells the state of an entry whose path is not empty. -/
theorem HasMarker.state_eq (hasMarker : cache.HasMarker addon valid tree) :
    cache.state addon tree =
      if cache.root.text = [] ∧ addon = [] then .missing else if valid then .valid else .invalid := by
  have empty : (cache.entry addon).text = [] ↔ cache.root.text = [] ∧ addon = [] := Path.text_join_eq_nil_iff
  rcases hasMarker with ⟨executable, found⟩
  by_cases nowhere : cache.root.text = [] ∧ addon = []
  · rw [if_pos nowhere, state, isDirectory_of_text_nil (empty.2 nowhere)]
    rfl
  · have there := isDirectory_of_find_join isName_markerName (mt empty.1 nowhere) found
    have read : tree.readText ((cache.entry addon).join markerName) = .ok (markerText valid) :=
      readText_eq_ok_iff.2 ⟨_, _, _, found, Text.decode?_encode _⟩
    rw [if_neg nowhere, state, there, read]
    cases valid <;> decide

end ReferenceCache

end AddonIndex
