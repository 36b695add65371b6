import AddonIndex.Proofs.FileTree.Listing
import AddonIndex.Proofs.FileTree.Preservation
import AddonIndex.Proofs.Path.Order

/-!
# Other orders of listing

Two trees may hold the same entries and list them in different orders. Every path leads to the same in both, every
operation on files makes the same of both, and what is listed and then sorted is the same.
-/

namespace AddonIndex

namespace FileTree

variable {first second third : FileTree} {path : Path} {place : Location}

/-- Whether two trees hold the same entries, each listed once, in whatever order. -/
structure SameEntries (first second : FileTree) : Prop where
  distinct : first.Distinct
  distinct_right : second.Distinct
  workingDirectory : second.workingDirectory = first.workingDirectory
  entryAt? : ∀ place, second.entryAt? place = first.entryAt? place

/-- Whether two listings of a directory fail in the same way, or list the same names in whatever order. -/
inductive SameListing : (listed other : Except FileError (List (Text × Entry))) → Prop
  | failed (cause : FileError) : SameListing (.error cause) (.error cause)
  | listed {children others : List (Text × Entry)} (perm : children.Perm others)
      (areNames : ∀ item ∈ children, Path.IsName item.1) : SameListing (.ok children) (.ok others)

namespace SameEntries

theorem refl (distinct : first.Distinct) : SameEntries first first :=
  ⟨distinct, distinct, rfl, fun _ => rfl⟩

theorem symm (same : SameEntries first second) : SameEntries second first :=
  ⟨same.distinct_right, same.distinct, same.workingDirectory.symm, fun place => (same.entryAt? place).symm⟩

theorem trans (same : SameEntries first second) (other : SameEntries second third) : SameEntries first third :=
  ⟨same.distinct, other.distinct_right, other.workingDirectory.trans same.workingDirectory,
    fun place => (other.entryAt? place).trans (same.entryAt? place)⟩

theorem mem_entries_iff (same : SameEntries first second) {entry : Entry} (below : place ≠ []) :
    (place, entry) ∈ second.entries ↔ (place, entry) ∈ first.entries := by
  rw [same.distinct.mem_entries_iff below, same.distinct_right.mem_entries_iff below, same.entryAt?]

/-- The same entries in another order. -/
theorem of_perm (distinct : first.Distinct) (workingDirectory : second.workingDirectory = first.workingDirectory)
    (perm : first.entries.Perm second.entries) : SameEntries first second := by
  have distinctRight : second.Distinct := (perm.map Prod.fst).nodup_iff.1 distinct
  refine ⟨distinct, distinctRight, workingDirectory, fun place => ?_⟩
  by_cases root : place = []
  · rw [FileTree.entryAt?, FileTree.entryAt?, if_pos root, if_pos root]
  · apply Option.ext
    intro entry
    rw [← distinct.mem_entries_iff root, ← distinctRight.mem_entries_iff root, perm.mem_iff]

theorem named (same : SameEntries first second) (named : first.Named) : second.Named where
  entries item member := by
    by_cases root : item.1 = []
    · rw [root]
      exact List.forall_mem_nil _
    · exact named.entries item ((same.mem_entries_iff root).1 member)
  start := same.workingDirectory ▸ named.start

theorem wellFormed (same : SameEntries first second) (formed : first.WellFormed) : second.WellFormed where
  distinct := same.distinct_right
  named item member := by
    by_cases root : item.1 = []
    · rw [root]
      exact List.forall_mem_nil _
    · exact formed.named item ((same.mem_entries_iff root).1 member)
  grounded place name entry there := by
    rw [same.entryAt?] at there ⊢
    exact formed.grounded place name entry there

/-! ### What is there -/

theorem resolve (same : SameEntries first second) (path : Path) : second.resolve path = first.resolve path := by
  have stepInto : second.stepInto = first.stepInto := by
    funext directory part
    rw [FileTree.stepInto, FileTree.stepInto, same.entryAt?]
  have start : second.start path = first.start path := by
    rw [FileTree.start, FileTree.start, same.workingDirectory]
  simp only [FileTree.resolve, FileTree.walk, stepInto, start]

theorem find (same : SameEntries first second) (path : Path) : second.find path = first.find path := by
  simp only [FileTree.find, same.resolve, same.entryAt?]

theorem pathExists (same : SameEntries first second) (path : Path) : second.pathExists path = first.pathExists path := by
  rw [FileTree.pathExists, FileTree.pathExists, same.find]

theorem isDirectory (same : SameEntries first second) (path : Path) :
    second.isDirectory path = first.isDirectory path := by
  rw [FileTree.isDirectory, FileTree.isDirectory, same.find]

theorem isFile (same : SameEntries first second) (path : Path) : second.isFile path = first.isFile path := by
  rw [FileTree.isFile, FileTree.isFile, same.find]

theorem readBytes (same : SameEntries first second) (path : Path) : second.readBytes path = first.readBytes path := by
  rw [FileTree.readBytes, FileTree.readBytes, same.find]

theorem readText (same : SameEntries first second) (path : Path) : second.readText path = first.readText path := by
  rw [FileTree.readText, FileTree.readText, same.readBytes]

theorem size (same : SameEntries first second) (path : Path) : second.size path = first.size path := by
  rw [FileTree.size, FileTree.size, same.find]

/-! ### What is listed -/

theorem below (same : SameEntries first second) (place : Location) : (first.below place).Perm (second.below place) := by
  have once : ∀ {tree : FileTree}, tree.Distinct → (tree.below place).Nodup := fun distinct =>
    (distinct.pairwise_below place).imp fun differ same => differ (congrArg Prod.fst same)
  apply (List.perm_ext_iff_of_nodup (once same.distinct) (once same.distinct_right)).2
  rintro ⟨relative, entry⟩
  rw [mem_below_iff, mem_below_iff]
  apply and_congr_right
  intro nonempty
  exact (same.mem_entries_iff (List.append_ne_nil_of_right_ne_nil _ nonempty)).symm

theorem children (same : SameEntries first second) (place : Location) :
    (first.children place).Perm (second.children place) :=
  (same.below place).filterMap _

theorem filesBelow (same : SameEntries first second) (path : Path) :
    (first.filesBelow path).Perm (second.filesBelow path) := by
  rw [FileTree.filesBelow, FileTree.filesBelow, same.find]
  split
  · exact .refl _
  · exact .refl _
  · exact (same.below _).filterMap _

theorem list (same : SameEntries first second) (named : first.Named) (path : Path) :
    SameListing (first.list path) (second.list path) := by
  rw [FileTree.list, FileTree.list, same.find]
  cases first.find path with
  | error cause => exact .failed cause
  | ok found =>
      rcases found with ⟨place, _ | ⟨content, executable⟩⟩
      · exact .listed (same.children place) fun item member => isName_of_mem_children named.entries member
      · exact .failed _

/-- Different files that are listed below a path have different parts. -/
theorem told (named : first.Named) :
    ∀ a ∈ first.filesBelow path, ∀ b ∈ first.filesBelow path, a.parts = b.parts → a = b := by
  cases found : first.find path with
  | error cause =>
      rw [FileTree.filesBelow, found]
      exact fun a member => absurd member List.not_mem_nil
  | ok there =>
      rcases there with ⟨place, _ | ⟨content, executable⟩⟩
      · have names : ∀ relative ∈ first.filesAt place, relative ≠ [] ∧ ∀ name ∈ relative, Path.IsName name := by
          intro relative member
          rcases List.mem_filterMap.1 member with ⟨⟨below, entry⟩, listed, isFile⟩
          rcases mem_below_iff.1 listed with ⟨nonempty, inEntries⟩
          cases entry with
          | directory => cases isFile
          | file content executable =>
              cases isFile
              exact ⟨nonempty, fun name member => named.entries _ inEntries name (List.mem_append_right _ member)⟩
        rw [filesBelow_eq found]
        intro a aMember b bMember same
        rcases List.mem_map.1 aMember with ⟨aNames, aListed, rfl⟩
        rcases List.mem_map.1 bMember with ⟨bNames, bListed, rfl⟩
        rw [Path.descend_injective_of_names path (names aNames aListed) (names bNames bListed) same]
      · rw [FileTree.filesBelow, found]
        intro a aMember b bMember _
        exact (List.mem_singleton.1 aMember).trans (List.mem_singleton.1 bMember).symm

/-- What is selected of the files below a path and sorted does not depend on the order in which they are listed. -/
theorem sort_filter_filesBelow (same : SameEntries first second) (named : first.Named) {wanted otherWanted : Path → Bool}
    (decides : ∀ file, otherWanted file = wanted file) :
    Path.sort ((second.filesBelow path).filter otherWanted) = Path.sort ((first.filesBelow path).filter wanted) := by
  rw [funext decides]
  symm
  apply Path.sort_eq_of_perm ((same.filesBelow path).filter wanted)
  intro a aMember b bMember
  exact told named a (List.mem_filter.1 aMember).1 b (List.mem_filter.1 bMember).1

theorem findFiles (same : SameEntries first second) (named : first.Named) (path : Path) (wanted : Text → Bool) :
    second.findFiles path wanted = first.findFiles path wanted :=
  same.sort_filter_filesBelow named fun _ => rfl

/-! ### Changes -/

theorem apply (same : SameEntries first second) (change : Change) :
    SameEntries (first.apply change) (second.apply change) := by
  refine ⟨same.distinct.apply change, same.distinct_right.apply change, ?_, fun place => ?_⟩
  · rw [workingDirectory_apply, workingDirectory_apply, same.workingDirectory]
  · rw [entryAt?_apply, entryAt?_apply, same.entryAt?]

theorem applyAll (same : SameEntries first second) (changes : List Change) :
    SameEntries (first.applyAll changes) (second.applyAll changes) := by
  induction changes generalizing first second with
  | nil => exact same
  | cons change changes ih => exact ih (same.apply change)

theorem entryAt?_eraseAll (places : List Location) (tree : FileTree) (place : Location) :
    (tree.applyAll (places.map .erase)).entryAt? place =
      if place ≠ [] ∧ place ∈ places then none else tree.entryAt? place := by
  induction places generalizing tree with
  | nil => simp
  | cons first places ih =>
      rw [List.map_cons, applyAll_cons, ih, entryAt?_apply]
      simp only [Change.location, Change.leaves?, List.mem_cons]
      by_cases root : place = []
      · simp [root]
      · by_cases here : place = first
        · subst here
          simp [root]
        · simp [here]

/-- The order in which entries are erased does not matter. -/
theorem eraseAll (same : SameEntries first second) {places others : List Location} (perm : places.Perm others) :
    SameEntries (first.applyAll (places.map .erase)) (second.applyAll (others.map .erase)) := by
  refine ⟨same.distinct.applyAll _, same.distinct_right.applyAll _, ?_, fun place => ?_⟩
  · rw [workingDirectory_applyAll, workingDirectory_applyAll, same.workingDirectory]
  · simp only [entryAt?_eraseAll, same.entryAt?, perm.mem_iff]

end SameEntries

end FileTree

namespace FileOp

open FileTree

variable {α β : Type} {first second : FileTree} {path source target : Path}

/-- Whether an operation makes the same of trees that hold the same entries. -/
def Agrees (operation : FileOp α) : Prop :=
  ∀ first second, SameEntries first second → (operation.run second).2 = (operation.run first).2 ∧
    SameEntries (operation.run first).1 (operation.run second).1

theorem agrees_pure (a : α) : Agrees (pure a : FileOp α) :=
  fun _ _ same => ⟨rfl, same⟩

theorem agrees_fail (e : FileError) : Agrees (fail e : FileOp α) :=
  fun _ _ same => ⟨rfl, same⟩

theorem agrees_inspect {look : FileTree → Except FileError α}
    (sees : ∀ first second, SameEntries first second → look second = look first) : Agrees (inspect look) :=
  fun first second same => ⟨sees first second same, same⟩

theorem agrees_change (made : Change) : Agrees (change made) :=
  fun _ _ same => ⟨rfl, same.apply made⟩

theorem agrees_attempt {operation : FileOp α} (agrees : Agrees operation) : Agrees (attempt operation) := by
  intro first second same
  rcases agrees first second same with ⟨result, same⟩
  exact ⟨congrArg Except.ok result, same⟩

theorem Agrees.bind {operation : FileOp α} {next : α → FileOp β} (agrees : Agrees operation)
    (later : ∀ a, Agrees (next a)) : Agrees (operation >>= next) := by
  intro first second same
  rcases agrees first second same with ⟨result, left⟩
  change (operation second).2 = (operation first).2 at result
  simp only [run_eq]
  cases ended : (operation first).2 with
  | error e =>
      rw [ended] at result
      rw [bind_of_error ended, bind_of_error result]
      exact ⟨rfl, left⟩
  | ok a =>
      rw [ended] at result
      rw [bind_of_ok ended, bind_of_ok result, applyAll_append, applyAll_append]
      exact later a _ _ left

theorem agrees_isDirectory (path : Path) : Agrees (inspect fun tree => .ok (tree.isDirectory path)) :=
  agrees_inspect fun _ _ same => congrArg Except.ok (same.isDirectory path)

theorem agrees_entryAt? (place : Location) : Agrees (inspect fun tree => .ok (tree.entryAt? place)) :=
  agrees_inspect fun _ _ same => congrArg Except.ok (same.entryAt? place)

theorem agrees_makeDirectory (path : Path) : Agrees (makeDirectory path) := by
  apply (agrees_inspect fun _ _ same => same.resolve path).bind
  rintro (⟨parent, name, slash⟩ | ⟨directory, last⟩)
  · apply (agrees_entryAt? _).bind
    rintro (_ | entry)
    · exact agrees_change _
    · exact agrees_fail _
  · exact agrees_fail _

theorem agrees_makeDirectoriesAlong (paths : List Path) : Agrees (makeDirectoriesAlong paths) := by
  induction paths with
  | nil => exact agrees_pure ()
  | cons path ancestors ih =>
      have unlessThere : ∀ e, Agrees (do
          if ← inspect fun tree => .ok (tree.isDirectory path) then return () else fail e : FileOp Unit) := by
        intro e
        apply (agrees_isDirectory path).bind
        intro there
        split
        · exact agrees_pure ()
        · exact agrees_fail e
      have tries := agrees_attempt (agrees_makeDirectory path)
      rw [makeDirectoriesAlong]
      split
      · exact agrees_pure ()
      · apply tries.bind
        intro made
        split
        · exact agrees_pure ()
        · apply ih.bind
          intro _
          apply tries.bind
          intro again
          split
          · exact agrees_pure ()
          · exact unlessThere _
        · exact unlessThere _

theorem agrees_makeDirectories (path : Path) : Agrees (makeDirectories path) :=
  agrees_makeDirectoriesAlong path.ancestors

theorem agrees_removeDirectory (path : Path) : Agrees (removeDirectory path) := by
  apply (agrees_inspect fun _ _ same => same.resolve path).bind
  rintro (⟨parent, name, slash⟩ | ⟨directory, last⟩)
  · apply (agrees_entryAt? _).bind
    rintro (_ | _ | ⟨content, executable⟩)
    · exact agrees_fail _
    · apply (agrees_inspect fun _ _ same => congrArg Except.ok (same.below _).isEmpty_eq.symm).bind
      intro isEmpty
      split
      · exact agrees_change _
      · exact agrees_fail _
    · exact agrees_fail _
  · simp only
    split
    · exact agrees_fail _
    · split
      · exact agrees_fail _
      · exact agrees_fail _

/-- The contents of a directory are removed in the order in which they are listed, but they are all removed. -/
theorem agrees_removeContents (directory : Location) : Agrees (removeContents directory) := by
  intro first second same
  refine ⟨rfl, ?_⟩
  have erases : ∀ tree : FileTree, (tree.below directory).reverse.map (fun item => Change.erase (directory ++ item.1)) =
      ((tree.below directory).reverse.map fun item => directory ++ item.1).map Change.erase := by
    intro tree
    rw [List.map_map]
    rfl
  simp only [run_eq, removeContents, erases]
  apply same.eraseAll
  apply List.Perm.map
  exact (List.reverse_perm _).trans ((same.below directory).trans (List.reverse_perm _).symm)

theorem agrees_removeTree (path : Path) : Agrees (removeTree path) := by
  apply (agrees_inspect fun _ _ same => same.find path).bind
  rintro ⟨place, _ | ⟨content, executable⟩⟩
  · apply (agrees_removeContents place).bind
    intro _
    apply (agrees_attempt (agrees_removeDirectory path)).bind
    intro removed
    split
    · exact agrees_pure ()
    · exact agrees_fail _
    · exact agrees_pure ()
  · exact agrees_fail _

theorem writable_congr (same : SameEntries first second) (path : Path) : writable path second = writable path first := by
  simp only [writable, same.resolve, same.entryAt?]

theorem agrees_writeBytes (path : Path) (content : ByteArray) : Agrees (writeBytes path content) := by
  apply (agrees_inspect fun _ _ same => writable_congr same path).bind
  rintro ⟨place, executable⟩
  exact (agrees_change _).bind fun _ => agrees_change _

theorem agrees_copyFile (source target : Path) : Agrees (copyFile source target) := by
  apply (agrees_inspect fun _ _ same => same.find source).bind
  rintro ⟨_, _ | ⟨content, executable⟩⟩
  · exact agrees_fail _
  · apply (agrees_inspect fun _ _ same => writable_congr same target).bind
    rintro ⟨place, _⟩
    apply (agrees_change _).bind
    intro _
    exact (agrees_inspect fun _ _ same => same.readBytes source).bind fun _ => agrees_change _

/-- Whether an operation makes the same of trees that hold the same entries, and leaves places made of names. -/
structure Orderly (operation : FileOp α) : Prop where
  agrees : Agrees operation
  named : ∀ tree : FileTree, tree.Named → (operation.run tree).1.Named

/-- What stays in the realm in which everything is owned leaves places made of names. -/
theorem named_of_staysIn {operation : FileOp α}
    (stays : ∀ tree : FileTree, StaysIn ⟨tree, fun _ => True, fun _ => True⟩ operation) (tree : FileTree)
    (named : tree.Named) : (operation.run tree).1.Named :=
  (stays tree tree (Realm.Bounds.refl named)).named

theorem Orderly.bind {operation : FileOp α} {next : α → FileOp β} (orderly : Orderly operation)
    (later : ∀ a, Orderly (next a)) : Orderly (operation >>= next) where
  agrees := orderly.agrees.bind fun a => (later a).agrees
  named tree named := by
    have left := orderly.named tree named
    rw [run_eq] at left ⊢
    cases ended : (operation tree).2 with
    | error e =>
        rw [bind_of_error ended]
        exact left
    | ok a =>
        rw [bind_of_ok ended, applyAll_append]
        exact (later a).named _ left

theorem orderly_pure (a : α) : Orderly (pure a : FileOp α) :=
  ⟨agrees_pure a, fun _ named => named⟩

theorem orderly_makeDirectory (path : Path) : Orderly (makeDirectory path) :=
  ⟨agrees_makeDirectory path, named_of_staysIn fun _ => staysIn_makeDirectory fun _ => .inl trivial⟩

theorem orderly_makeDirectories (path : Path) : Orderly (makeDirectories path) :=
  ⟨agrees_makeDirectories path, named_of_staysIn fun _ => staysIn_makeDirectories fun _ _ _ => .inl trivial⟩

theorem orderly_removeDirectory (path : Path) : Orderly (removeDirectory path) :=
  ⟨agrees_removeDirectory path, named_of_staysIn fun _ => staysIn_removeDirectory trivial⟩

theorem orderly_removeTree (path : Path) : Orderly (removeTree path) :=
  ⟨agrees_removeTree path, named_of_staysIn fun _ => staysIn_removeTree fun _ => trivial⟩

theorem orderly_writeBytes (path : Path) (content : ByteArray) : Orderly (writeBytes path content) :=
  ⟨agrees_writeBytes path content, named_of_staysIn fun _ => staysIn_writeBytes trivial⟩

theorem orderly_copyFile (source target : Path) : Orderly (copyFile source target) :=
  ⟨agrees_copyFile source target, named_of_staysIn fun _ => staysIn_copyFile trivial⟩

end FileOp

end AddonIndex
