import AddonIndex.Proofs.FileTree.Failure
import AddonIndex.Proofs.FileTree.Relisting
import AddonIndex.Proofs.Path.Descent
import AddonIndex.Proofs.Reference.Marking
import AddonIndex.Proofs.Reference.Mirror

/-!
# Files that are kept side by side

A copy into an entry writes below one name in it, and looks at the source and on the way to the target. What stands
below another name makes no difference to it: neither whether it succeeds nor what it changes.
-/

namespace AddonIndex

namespace FileTree

open Location

variable {tree other first second : FileTree} {path above : Path} {place : Location}

/-! ## Ways past a place -/

theorem Avoids.resolve_eq (avoids : tree.Avoids path place)
    (workingDirectory : other.workingDirectory = tree.workingDirectory)
    (agree : ∀ passed, ¬ place <+: passed → other.entryAt? passed = tree.entryAt? passed) :
    other.resolve path = tree.resolve path := by
  apply resolve_congr workingDirectory
  apply walk_congr
  exact fun passed member => agree passed (avoids passed (visited_dropLast_subset _ _ member))

theorem Avoids.find_eq (avoids : tree.Avoids path place)
    (workingDirectory : other.workingDirectory = tree.workingDirectory)
    (agree : ∀ passed, ¬ place <+: passed → other.entryAt? passed = tree.entryAt? passed) :
    other.find path = tree.find path :=
  find_eq_of_agree workingDirectory fun passed member => agree passed (avoids passed member)

/-- What is in two trees at the end of the same names is found alike in both, or in vain for the same reason, as long
as the way to where the names begin is the same. -/
theorem find_descend_eq {base : Path} {names : List Text} {entry : Entry} (formed : tree.WellFormed)
    (formedOther : other.WellFormed) (workingDirectory : other.workingDirectory = tree.workingDirectory)
    (agree : ∀ passed ∈ visited (tree.start base) base.written, other.entryAt? passed = tree.entryAt? passed)
    (areNames : ∀ name ∈ names, Path.IsName name) (there : tree.entryAt? (tree.location base ++ names) = some entry)
    (thereToo : other.entryAt? (tree.location base ++ names) = some entry) :
    other.find (base.descend names) = tree.find (base.descend names) := by
  apply find_eq_of_agree workingDirectory
  intro passed member
  rw [start_descend tree base areNames, Path.written_descend base areNames, visited_append] at member
  rcases List.mem_append.1 member with onWay | below
  · exact agree passed onWay
  · rcases prefix_of_mem_visited areNames below with ⟨rest, whole⟩
    rw [← show tree.location base = (base.written.foldl step (tree.start base)) from rfl] at whole
    rw [← whole] at there thereToo
    -- All but the last of these places are directories in both trees, since there is something below them.
    by_cases last : rest = []
    · rw [last, List.append_nil] at there thereToo
      rw [there, thereToo]
    · rw [formed.above there last, formedOther.above thereToo last]

/-- The way to a path above another one leads past whatever the way to that one leads past. -/
theorem Avoids.of_mem_ancestors (avoids : tree.Avoids path place) (member : above ∈ path.ancestors) :
    tree.Avoids above place := by
  by_cases empty : above.text = []
  · rcases above with ⟨text⟩
    cases empty
    exact List.forall_mem_nil _
  · rcases (Path.prefix_of_mem_ancestors member).resolve_left empty with ⟨text, more, written⟩
    intro passed isPassed
    apply avoids passed
    rw [start_eq_of_begins empty text, ← written, visited_append]
    exact List.mem_append_left _ isPassed

/-- Where two trees agree, they still do after the same changes. -/
theorem entryAt?_applyAll_congr (same : second.entryAt? place = first.entryAt? place) (changes : List Change) :
    (second.applyAll changes).entryAt? place = (first.applyAll changes).entryAt? place := by
  induction changes generalizing first second with
  | nil => exact same
  | cons change rest ih =>
      apply ih
      rw [entryAt?_apply, entryAt?_apply, same]

end FileTree

namespace Reference

open FileTree

variable {place : Location} {first second : FileTree}

theorem ChangesWithin.applyAll (within : ChangesWithin place first second) (changes : List Change) :
    ChangesWithin place (first.applyAll changes) (second.applyAll changes) where
  workingDirectory := by
    rw [workingDirectory_applyAll, workingDirectory_applyAll]
    exact within.workingDirectory
  elsewhere other outside := entryAt?_applyAll_congr (within.elsewhere other outside) changes

end Reference

namespace FileOp

open FileTree Reference

variable {α β : Type} {base : FileTree} {place : Location} {path source target : Path}

/-! ## Operations that look past a place -/

/-- Whether an operation does the same in trees that differ only at and below a place. Relative paths begin in all of
them where they do in a given one. -/
def LooksPast (base : FileTree) (place : Location) (operation : FileOp α) : Prop :=
  ∀ first second, first.workingDirectory = base.workingDirectory → ChangesWithin place first second →
    operation second = operation first

theorem looksPast_pure (a : α) : LooksPast base place (pure a : FileOp α) :=
  fun _ _ _ _ => rfl

theorem looksPast_fail (e : FileError) : LooksPast base place (fail e : FileOp α) :=
  fun _ _ _ _ => rfl

theorem looksPast_change (made : Change) : LooksPast base place (change made) :=
  fun _ _ _ _ => rfl

theorem looksPast_inspect {look : FileTree → Except FileError α}
    (sees : ∀ first second, first.workingDirectory = base.workingDirectory → ChangesWithin place first second →
      look second = look first) : LooksPast base place (inspect look) :=
  fun first second begins within => congrArg (Prod.mk []) (sees first second begins within)

theorem LooksPast.attempt {operation : FileOp α} (looksPast : LooksPast base place operation) :
    LooksPast base place (FileOp.attempt operation) := by
  intro first second begins within
  unfold FileOp.attempt
  rw [looksPast first second begins within]

theorem LooksPast.bind {operation : FileOp α} {next : α → FileOp β} (looksPast : LooksPast base place operation)
    (later : ∀ tree a, tree.workingDirectory = base.workingDirectory → (operation tree).2 = .ok a →
      LooksPast base place (next a)) : LooksPast base place (operation >>= next) := by
  intro first second begins within
  have same := looksPast first second begins within
  cases ended : (operation first).2 with
  | error e => rw [bind_of_error ended, bind_of_error (same ▸ ended), same]
  | ok a =>
      have goesOn := later first a begins ended (first.applyAll (operation first).1)
        (second.applyAll (operation first).1) ((workingDirectory_applyAll _ _).trans begins) (within.applyAll _)
      rw [bind_of_ok ended, bind_of_ok (same ▸ ended), same, goesOn]

theorem looksPast_find (avoids : base.Avoids path place) : LooksPast base place (inspect (·.find path)) :=
  looksPast_inspect fun _ _ begins within =>
    (avoids.start_congr begins).find_eq within.workingDirectory within.elsewhere

theorem looksPast_isDirectory (avoids : base.Avoids path place) :
    LooksPast base place (inspect fun tree => .ok (tree.isDirectory path)) := by
  apply looksPast_inspect
  intro first second begins within
  have found := (avoids.start_congr begins).find_eq within.workingDirectory within.elsewhere
  rw [FileTree.isDirectory, FileTree.isDirectory, found]

theorem looksPast_makeDirectory (avoids : base.Avoids path place) : LooksPast base place (makeDirectory path) := by
  apply LooksPast.bind
  · apply looksPast_inspect
    exact fun _ _ begins within =>
      (avoids.start_congr begins).resolve_eq within.workingDirectory within.elsewhere
  rintro tree (⟨parent, name, slash⟩ | ⟨directory, last⟩) begins resolved
  · apply LooksPast.bind
    · apply looksPast_inspect
      intro first second _ within
      exact congrArg Except.ok (within.elsewhere _ (avoids.start_congr begins _ (mem_visited_of_resolve resolved)))
    · rintro _ (_ | entry) _ _
      · exact looksPast_change _
      · exact looksPast_fail _
  · exact looksPast_fail _

theorem looksPast_makeDirectoriesAlong {paths : List Path} (avoids : ∀ path ∈ paths, base.Avoids path place) :
    LooksPast base place (makeDirectoriesAlong paths) := by
  induction paths with
  | nil => exact looksPast_pure ()
  | cons path ancestors ih =>
      rcases List.forall_mem_cons.1 avoids with ⟨avoidsPath, avoids⟩
      have tries := (looksPast_makeDirectory avoidsPath).attempt
      have unlessThere : ∀ e, LooksPast base place (do
          if ← inspect fun tree => .ok (tree.isDirectory path) then return () else fail e : FileOp Unit) := by
        intro e
        apply (looksPast_isDirectory avoidsPath).bind
        intro _ there _ _
        split
        · exact looksPast_pure ()
        · exact looksPast_fail e
      rw [makeDirectoriesAlong]
      split
      · exact looksPast_pure ()
      · apply tries.bind
        intro _ made _ _
        split
        · exact looksPast_pure ()
        · apply (ih avoids).bind
          intro _ _ _ _
          apply tries.bind
          intro _ again _ _
          split
          · exact looksPast_pure ()
          · exact unlessThere _
        · exact unlessThere _

theorem looksPast_makeDirectories (avoids : base.Avoids path place) : LooksPast base place (makeDirectories path) :=
  looksPast_makeDirectoriesAlong fun _ member => avoids.of_mem_ancestors member

theorem looksPast_copyFile (avoidsSource : base.Avoids source place) (avoidsTarget : base.Avoids target place) :
    LooksPast base place (copyFile source target) := by
  apply (looksPast_find avoidsSource).bind
  rintro _ ⟨_, _ | ⟨content, executable⟩⟩ _ _
  · exact looksPast_fail _
  · apply LooksPast.bind
    · apply looksPast_inspect
      intro first second begins within
      have avoids := avoidsTarget.start_congr begins
      have resolves := avoids.resolve_eq within.workingDirectory within.elsewhere
      unfold writable
      rw [resolves]
      cases resolved : first.resolve target with
      | error e => rfl
      | ok found =>
          rcases found with ⟨parent, name, slash⟩ | ⟨directory, last⟩
          · simp only [bind, Except.bind, within.elsewhere _ (avoids _ (mem_visited_of_resolve resolved))]
          · rfl
    rintro _ ⟨written, _⟩ _ _
    apply (looksPast_change _).bind
    intro _ _ _ _
    apply LooksPast.bind
    · apply looksPast_inspect
      intro first second begins within
      have found := (avoidsSource.start_congr begins).find_eq within.workingDirectory within.elsewhere
      rw [FileTree.readBytes, FileTree.readBytes, found]
    · exact fun _ _ _ _ => looksPast_change _

end FileOp

namespace ReferenceCache

open FileOp FileTree Reference

variable {base tree : FileTree} {place : Location} {entry : Path} {stem other : Text} {file : SourceFile}

/-! ## Copies below different names -/

/-- A copy looks past a place that is neither on the way to its source nor on the way to its target. -/
theorem looksPast_copy (avoidsSource : base.Avoids file.source place)
    (avoidsTarget : base.Avoids (target entry stem file) place) : LooksPast base place (copy entry stem file) := by
  have copies : LooksPast base place (do
      copyFile file.source (target entry stem file)
      return target entry stem file : FileOp Path) :=
    (looksPast_copyFile avoidsSource avoidsTarget).bind fun _ _ _ _ => looksPast_pure _
  unfold copy
  dsimp only
  cases isParent : (target entry stem file).parent? with
  | none => exact copies
  | some parent =>
      have isAncestor : parent ∈ (target entry stem file).ancestors := by
        rcases exists_ancestors_eq parent with ⟨ancestors, along⟩
        rw [Path.ancestors, isParent]
        change parent ∈ target entry stem file :: parent.ancestors
        rw [along]
        exact List.mem_cons_of_mem _ List.mem_cons_self
      exact (looksPast_makeDirectories (avoidsTarget.of_mem_ancestors isAncestor)).bind fun _ _ _ _ => copies

/-- A copy into an entry that is there changes nothing but what is below the name of the extraction directory. -/
theorem changesWithin_copy {names : List Text} (ends : Path.EndsInName entry) (isName : Path.IsName stem)
    (areNames : ∀ name ∈ names, Path.IsName name) (nonempty : names ≠ [])
    (isTarget : target entry stem file = entry.descend (stem :: names))
    (avoids : tree.Avoids entry (place ++ [stem])) (found : tree.find entry = .ok (place, .directory)) :
    ChangesWithin (place ++ [stem]) tree ((copy entry stem file).run tree).1 := by
  let related (before after : FileTree) : Prop := before.workingDirectory = tree.workingDirectory →
    before.find entry = .ok (place, .directory) → ChangesWithin (place ++ [stem]) before after
  have trans : ∀ a b c, related a b → related b c → related a c := by
    intro a b c first second begins found
    have within := first begins found
    apply within.trans
    apply second (within.workingDirectory.trans begins)
    rw [(avoids.start_congr begins).find_eq within.workingDirectory within.elsewhere, found]
  rcases List.eq_nil_or_concat names with rfl | ⟨front, last, rfl⟩
  · exact absurd rfl nonempty
  rw [List.concat_eq_append] at areNames isTarget
  have frontNames : ∀ name ∈ stem :: front, Path.IsName name :=
    List.forall_mem_cons.2 ⟨isName, fun name member => areNames name (List.mem_append_left _ member)⟩
  have allNames : ∀ name ∈ stem :: (front ++ [last]), Path.IsName name := List.forall_mem_cons.2 ⟨isName, areNames⟩
  have parent : (entry.descend (stem :: (front ++ [last]))).parent? = some (entry.descend (stem :: front)) := by
    rw [← List.cons_append, Path.descend_append, Path.descend_singleton]
    exact Path.parent?_join (ends.descend frontNames) (areNames last (by simp))
  have makes : Leads related (makeDirectories (entry.descend (stem :: front))) := by
    intro before _ found
    apply changesWithin_of_grows (grows_makeDirectories ends frontNames found)
    rintro _ ⟨above, nonempty, isPrefix, rfl⟩
    rcases (List.prefix_cons_iff.1 isPrefix).resolve_left nonempty with ⟨rest, rfl, -⟩
    exact ⟨rest, by simp⟩
  have copies : Leads related (copyFile file.source (target entry stem file)) := by
    intro before _ found
    refine ⟨workingDirectory_applyAll _ _, fun other outside => ?_⟩
    apply entryAt?_applyAll_of_untouched
    rintro change member rfl
    rw [(location_of_mem_copyFile member).1, isTarget, location_descend before entry allNames,
      ← find_location found] at outside
    exact outside ⟨front ++ [last], by simp⟩
  have whole : Leads related (copy entry stem file) := by
    unfold copy
    simp only [isTarget, parent]
    apply makes.bind trans
    intro _
    rw [← isTarget]
    exact copies.bind trans fun _ before _ _ => .refl _ _
  exact whole tree rfl found

end ReferenceCache

end AddonIndex
