import AddonIndex.Proofs.FileTree.History
import AddonIndex.Proofs.FileTree.Location

/-!
# Operations and where they stop

An operation that is stopped on its way, or that fails, leaves the tree after
some first part of its changes. What each operation can have changed is told
here once, so that nothing later opens an operation.
-/

namespace AddonIndex

namespace FileOp

open FileTree

variable {α β : Type} {tree : FileTree} {path : Path}

/-- Whether an operation that is stopped somewhere can have made these changes. -/
def StopsAfter (operation : FileOp α) (tree : FileTree) (made : List Change) : Prop :=
  made <+: (operation tree).1

/-- Whether all changes of an operation are of a kind. -/
def Only (kind : Change → Prop) (operation : FileOp α) : Prop :=
  ∀ tree, ∀ change ∈ (operation tree).1, kind change

@[simp]
theorem location_applyAll (changes : List Change) (path : Path) :
    (tree.applyAll changes).location path = tree.location path :=
  location_congr (workingDirectory_applyAll tree changes) path

/-! ## Sequences -/

theorem bind_of_ok {first : FileOp α} {next : α → FileOp β} {a : α}
    (succeeds : (first tree).2 = .ok a) :
    (first >>= next) tree =
      ((first tree).1 ++ (next a (tree.applyAll (first tree).1)).1,
        (next a (tree.applyAll (first tree).1)).2) := by
  change FileOp.bind first next tree = _
  unfold FileOp.bind
  split
  · rename_i changes e result
    rw [result] at succeeds
    cases succeeds
  · rename_i changes b result
    rw [result] at succeeds
    cases succeeds
    simp [result]

theorem bind_of_error {first : FileOp α} {next : α → FileOp β} {e : FileError}
    (fails : (first tree).2 = .error e) :
    (first >>= next) tree = ((first tree).1, .error e) := by
  change FileOp.bind first next tree = _
  unfold FileOp.bind
  split
  · rename_i changes other result
    rw [result] at fails
    cases fails
    simp [result]
  · rename_i changes b result
    rw [result] at fails
    cases fails

/-- A sequence stops in its first operation, or after it in the second one. -/
theorem stopsAfter_bind {first : FileOp α} {next : α → FileOp β} {made : List Change}
    (stops : StopsAfter (first >>= next) tree made) :
    StopsAfter first tree made ∨
      ∃ a more, (first tree).2 = .ok a ∧ made = (first tree).1 ++ more ∧
        StopsAfter (next a) (tree.applyAll (first tree).1) more := by
  unfold StopsAfter at stops ⊢
  cases result : (first tree).2 with
  | error e =>
      rw [bind_of_error result] at stops
      exact .inl stops
  | ok a =>
      rw [bind_of_ok result] at stops
      obtain ⟨left, split⟩ := stops
      rcases List.append_eq_append_iff.1 split with ⟨rest, whole, -⟩ | ⟨more, whole, later⟩
      · exact .inl ⟨rest, whole.symm⟩
      · exact .inr ⟨a, more, rfl, whole, left, later.symm⟩

/-- A sequence whose second operation only answers stops where its first one stops. -/
theorem stopsAfter_bind_pure {first : FileOp α} {answer : α → β} {made : List Change}
    (stops : StopsAfter (first >>= fun a => pure (answer a)) tree made) :
    StopsAfter first tree made := by
  rcases stopsAfter_bind stops with before | ⟨a, more, -, rfl, after⟩
  · exact before
  · rw [List.prefix_nil.1 after, List.append_nil]
    exact List.prefix_refl _

theorem Only.of_stopsAfter {kind : Change → Prop} {operation : FileOp α} {made : List Change}
    (only : Only kind operation) (stops : StopsAfter operation tree made) :
    ∀ change ∈ made, kind change :=
  fun change member => only tree change (stops.subset member)

theorem Only.bind {kind : Change → Prop} {first : FileOp α} {next : α → FileOp β}
    (firstOnly : Only kind first) (nextOnly : ∀ a, Only kind (next a)) :
    Only kind (first >>= next) := by
  intro tree change member
  cases result : (first tree).2 with
  | error e =>
      rw [bind_of_error result] at member
      exact firstOnly tree change member
  | ok a =>
      rw [bind_of_ok result] at member
      rcases List.mem_append.1 member with before | after
      · exact firstOnly tree change before
      · exact nextOnly a _ change after

theorem only_inspect {kind : Change → Prop} (look : FileTree → Except FileError α) :
    Only kind (inspect look) :=
  fun _ _ member => absurd member List.not_mem_nil

theorem only_fail {kind : Change → Prop} (e : FileError) : Only kind (fail e : FileOp α) :=
  fun _ _ member => absurd member List.not_mem_nil

theorem only_pure {kind : Change → Prop} (a : α) : Only kind (pure a : FileOp α) :=
  fun _ _ member => absurd member List.not_mem_nil

theorem only_change {kind : Change → Prop} {c : Change} (isKind : kind c) : Only kind (change c) := by
  intro tree other member
  rw [List.mem_singleton.1 member]
  exact isKind

theorem Only.attempt {kind : Change → Prop} {operation : FileOp α} (only : Only kind operation) :
    Only kind (attempt operation) :=
  only

/-! ## Making directories -/

theorem only_makeDirectory (path : Path) : Only Change.MakesDirectory (makeDirectory path) := by
  unfold makeDirectory
  refine (only_inspect _).bind fun place => ?_
  split
  · exact only_fail _
  · refine (only_inspect _).bind fun found => ?_
    split
    · exact only_fail _
    · exact only_change ⟨_, rfl⟩

theorem only_makeDirectoriesAlong (paths : List Path) :
    Only Change.MakesDirectory (makeDirectoriesAlong paths) := by
  induction paths with
  | nil => exact only_pure ()
  | cons path ancestors ih =>
      unfold makeDirectoriesAlong
      -- What is done when a directory could not be made.
      have orElse : ∀ e, Only Change.MakesDirectory
          (inspect (fun tree => .ok (tree.isDirectory path)) >>= fun there =>
            if there then pure () else fail e) := by
        intro e
        refine (only_inspect _).bind fun there => ?_
        split
        · exact only_pure ()
        · exact only_fail e
      split
      · exact only_pure ()
      · refine (only_makeDirectory path).attempt.bind fun made => ?_
        split
        · exact only_pure ()
        · refine ih.bind fun _ => (only_makeDirectory path).attempt.bind fun again => ?_
          split
          · exact only_pure ()
          · exact orElse _
        · exact orElse _

theorem only_makeDirectories (path : Path) : Only Change.MakesDirectory (makeDirectories path) :=
  only_makeDirectoriesAlong path.ancestors

/-! ## Removing -/

theorem only_removeDirectory (path : Path) : Only Change.Erases (removeDirectory path) := by
  unfold removeDirectory
  refine (only_inspect _).bind fun place => ?_
  split
  · split
    · exact only_fail _
    · split
      · exact only_fail _
      · exact only_fail _
  · refine (only_inspect _).bind fun found => ?_
    split
    · exact only_fail _
    · exact only_fail _
    · refine (only_inspect _).bind fun isEmpty => ?_
      split
      · exact only_change ⟨_, rfl⟩
      · exact only_fail _

theorem only_removeContents (directory : Location) : Only Change.Erases (removeContents directory) := by
  intro tree change member
  obtain ⟨item, -, rfl⟩ := List.mem_map.1 member
  exact ⟨_, rfl⟩

theorem only_removeTree (path : Path) : Only Change.Erases (removeTree path) := by
  unfold removeTree
  refine (only_inspect _).bind fun found => ?_
  split
  · exact only_fail _
  · refine (only_removeContents _).bind fun _ => (only_removeDirectory path).attempt.bind fun again => ?_
    split
    · exact only_pure ()
    · exact only_fail _
    · exact only_pure ()

/-- A directory is removed only after everything below it. -/
theorem erase_mem_removeTree {place : Location} (found : tree.find path = .ok (place, .directory))
    {item : Location × Entry} (below : item ∈ tree.below place) :
    .erase (place ++ item.1) ∈ (removeTree path tree).1 := by
  have inspected : (inspect (fun tree : FileTree => tree.find path) tree).2 =
      .ok (place, Entry.directory) := found
  have contents : (removeContents place tree).2 = .ok () := rfl
  unfold removeTree
  rw [bind_of_ok inspected]
  refine List.mem_append_right _ ?_
  simp only [inspect, applyAll_nil]
  rw [bind_of_ok contents]
  refine List.mem_append_left _ (List.mem_map.2 ⟨item, List.mem_reverse.2 below, rfl⟩)

/-! ## Writing -/

/-- A file that can be written is emptied and then filled. -/
theorem writeBytes_eq (path : Path) (content : ByteArray) (tree : FileTree) :
    writeBytes path content tree =
      match writable path tree with
      | .error e => ([], .error e)
      | .ok (place, executable) =>
          ([.putFile place ByteArray.empty executable, .putFile place content executable], .ok ()) := by
  unfold writeBytes
  cases result : writable path tree with
  | error e => rw [bind_of_error (e := e) result]; rfl
  | ok found => rw [bind_of_ok (a := found) result]; rfl

/-- Writing a file stops after a part of emptying and filling it. -/
theorem stopsAfter_writeBytes {content : ByteArray} {made : List Change}
    (stops : StopsAfter (writeBytes path content) tree made) :
    made = [] ∨ ∃ place executable, writable path tree = .ok (place, executable) ∧
      made <+: [.putFile place ByteArray.empty executable, .putFile place content executable] := by
  unfold StopsAfter at stops
  rw [writeBytes_eq] at stops
  cases result : writable path tree with
  | error e =>
      rw [result] at stops
      exact .inl (List.prefix_nil.1 stops)
  | ok found =>
      rw [result] at stops
      exact .inr ⟨found.1, found.2, rfl, stops⟩

/-- A file can be written where a path ends with a name that is no directory. -/
theorem writable_eq_ok_iff {place : Location} {executable : Bool} :
    writable path tree = .ok (place, executable) ↔
      ∃ parent name, tree.resolve path = .ok (.name parent name false) ∧ place = parent ++ [name] ∧
        ((tree.entryAt? place = none ∧ executable = false) ∨
          ∃ content, tree.entryAt? place = some (.file content executable)) := by
  rw [writable, bind_eq_ok_iff]
  constructor
  · rintro ⟨found, resolved, result⟩
    cases found with
    | dots directory last => cases result
    | name parent name slash =>
        cases slash with
        | true => cases result
        | false =>
            simp only [Bool.false_eq_true, if_false] at result
            refine ⟨parent, name, resolved, ?_⟩
            split at result
            · cases result
            · rename_i content _ there
              cases result
              exact ⟨rfl, .inr ⟨content, there⟩⟩
            · rename_i absent
              cases result
              exact ⟨rfl, .inl ⟨absent, rfl⟩⟩
  · rintro ⟨parent, name, resolved, rfl, ⟨absent, rfl⟩ | ⟨content, there⟩⟩
    · refine ⟨_, resolved, ?_⟩
      simp only [absent, Bool.false_eq_true, if_false]
      rfl
    · refine ⟨_, resolved, ?_⟩
      simp only [there, Bool.false_eq_true, if_false]
      rfl

end FileOp

end AddonIndex
