import AddonIndex.Proofs.FileTree.Failure
import AddonIndex.Proofs.FileTree.Way

/-!
# What operations leave alone

Some places of a tree are reserved: what is there, and whether something is there, is to stay as it is. Some of them
may be exempt, for a file that is written on purpose. An operation leaves the reserved places alone if it neither
writes nor erases there; a directory that is made on the way to another one is made only where nothing is.
-/

namespace AddonIndex

namespace FileTree

variable {tree after : FileTree} {path : Path} {place : Location} {changes : List Change}

/-! ## Names -/

/-- Whether all places of a tree consist of names, and so does the one where relative paths begin. -/
structure Named (tree : FileTree) : Prop where
  entries : ∀ item ∈ tree.entries, ∀ name ∈ item.1, Path.IsName name
  start : ∀ name ∈ tree.workingDirectory, Path.IsName name

theorem Named.applyAll (named : tree.Named)
    (areNames : ∀ change ∈ changes, change.leaves?.isSome → ∀ name ∈ change.location, Path.IsName name) :
    (tree.applyAll changes).Named where
  entries item member := by
    rcases mem_entries_applyAll member with earlier | ⟨change, isChange, here, left⟩
    · exact named.entries item earlier
    · rw [← here]
      exact areNames change isChange (Option.isSome_of_eq_some left)
  start := by
    rw [workingDirectory_applyAll]
    exact named.start

/-- Paths lead to places that consist of names. -/
theorem Named.location (named : tree.Named) (path : Path) : ∀ name ∈ tree.location path, Path.IsName name := by
  have start : ∀ name ∈ tree.start path, Path.IsName name := by
    unfold FileTree.start
    split
    · exact List.forall_mem_nil _
    · exact named.start
  have parts : ∀ part ∈ path.written, part ≠ [] ∧ '/' ∉ part := fun _ => Path.part_of_mem_written
  unfold FileTree.location
  generalize tree.start path = place at start
  generalize path.written = written at parts
  induction written generalizing place with
  | nil => exact start
  | cons part rest ih =>
      rcases List.forall_mem_cons.1 parts with ⟨⟨nonempty, noSlash⟩, parts⟩
      apply ih _ _ parts
      unfold Location.step
      split
      · exact start
      · split
        · exact fun name member => start name (List.dropLast_subset _ member)
        · rename_i notHere notUp
          intro name member
          rcases List.mem_append.1 member with earlier | last
          · exact start name earlier
          · rw [List.mem_singleton.1 last]
            exact ⟨nonempty, noSlash, notHere, notUp⟩

/-! ## Reserved places -/

/-- Places that are reserved in a tree, of which some are exempt. -/
structure Reserve where
  tree : FileTree
  reserved : Location → Prop
  exempt : Location → Prop

/-- Whether a tree has what another one has at reserved places. Of exempt places nothing is required but that
something is there if there was something. -/
structure Intact (reserve : Reserve) (tree : FileTree) : Prop where
  named : tree.Named
  workingDirectory : tree.workingDirectory = reserve.tree.workingDirectory
  kept : ∀ place, reserve.reserved place → ¬ reserve.exempt place →
    tree.entryAt? place = reserve.tree.entryAt? place
  stays : ∀ place, reserve.reserved place → (reserve.tree.entryAt? place).isSome → (tree.entryAt? place).isSome

variable {reserve : Reserve}

theorem Intact.location (intact : Intact reserve tree) (path : Path) :
    tree.location path = reserve.tree.location path :=
  location_congr intact.workingDirectory path

/-- A change at a place that is not reserved, or a file that is written at an exempt place, leaves the others. -/
theorem Intact.apply (intact : Intact reserve tree) {change : Change}
    (names : ∀ name ∈ change.location, Path.IsName name)
    (spares : reserve.reserved change.location → reserve.exempt change.location ∧ change.leaves?.isSome) :
    Intact reserve (tree.apply change) where
  named := @Named.applyAll tree [change] intact.named (List.forall_mem_singleton.2 fun _ => names)
  workingDirectory := (workingDirectory_apply change).trans intact.workingDirectory
  kept place isReserved notExempt := by
    rw [entryAt?_apply]
    split
    · rename_i here
      rw [here.2] at isReserved notExempt
      exact absurd (spares isReserved).1 notExempt
    · exact intact.kept place isReserved notExempt
  stays place isReserved there := by
    rw [entryAt?_apply]
    split
    · rename_i here
      rw [here.2] at isReserved
      exact (spares isReserved).2
    · exact intact.stays place isReserved there

theorem Intact.applyAll (intact : Intact reserve tree)
    (names : ∀ change ∈ changes, ∀ name ∈ change.location, Path.IsName name)
    (spares : ∀ change ∈ changes, reserve.reserved change.location →
      reserve.exempt change.location ∧ change.leaves?.isSome) : Intact reserve (tree.applyAll changes) := by
  induction changes generalizing tree with
  | nil => exact intact
  | cons change rest ih =>
      rcases List.forall_mem_cons.1 names with ⟨changeNames, names⟩
      rcases List.forall_mem_cons.1 spares with ⟨changeSpares, spares⟩
      exact ih (intact.apply changeNames changeSpares) names spares

/-- Erasing what is not reserved leaves what is. -/
theorem Intact.erase (intact : Intact reserve tree) (erases : ∀ change ∈ changes, change.Erases)
    (spares : ∀ change ∈ changes, ¬ reserve.reserved change.location) : Intact reserve (tree.applyAll changes) where
  named := by
    apply intact.named.applyAll
    intro change member left
    rcases erases change member with ⟨_, rfl⟩
    cases left
  workingDirectory := (workingDirectory_applyAll tree changes).trans intact.workingDirectory
  kept place isReserved notExempt := by
    rw [entryAt?_applyAll_of_untouched]
    · exact intact.kept place isReserved notExempt
    · rintro change member rfl
      exact spares change member isReserved
  stays place isReserved there := by
    rw [entryAt?_applyAll_of_untouched]
    · exact intact.stays place isReserved there
    · rintro change member rfl
      exact spares change member isReserved

end FileTree

namespace FileOp

open FileTree

variable {α : Type} {reserve : Reserve} {path source target : Path}

/-- Whether an operation leaves reserved places alone, whether it succeeds or not. -/
abbrev Spares (reserve : Reserve) (operation : FileOp α) : Prop :=
  Leads (fun before after => Intact reserve before → Intact reserve after) operation

theorem Spares.bind {β : Type} {first : FileOp α} {next : α → FileOp β} (spares : Spares reserve first)
    (later : ∀ a, Spares reserve (next a)) : Spares reserve (first >>= next) :=
  Leads.bind (fun _ _ _ first second intact => second (first intact)) spares later

/-- What is reserved is left by a removal unless it is at or below the place that is removed. -/
theorem spares_removeTree (free : ∀ below, ¬ reserve.reserved (reserve.tree.location path ++ below)) :
    Spares reserve (removeTree path) := by
  intro tree intact
  apply intact.erase (only_removeTree path tree)
  intro change member
  rcases erases_of_mem_removeTree member with ⟨below, rfl⟩
  rw [show Change.location (.erase (tree.location path ++ below)) = tree.location path ++ below from rfl,
    intact.location]
  exact free below

end FileOp

end AddonIndex

/-!
## What may be changed

A realm tells which places of a tree may be changed. Some are owned: there anything may be written or erased. Others are
on a way: there a directory may be made, but only where nothing is. Everything else is as it was after any number of
operations that stay in the realm.
-/

namespace AddonIndex

namespace FileTree

variable {tree : FileTree} {path : Path} {place : Location} {changes : List Change}

/-- Places that may be changed: those that are owned, and those on a way on which directories are made. -/
structure Realm where
  tree : FileTree
  owned : Location → Prop
  way : Location → Prop

/-- Whether a tree differs from that of a realm only where it may. -/
structure Realm.Bounds (realm : Realm) (tree : FileTree) : Prop where
  named : tree.Named
  workingDirectory : tree.workingDirectory = realm.tree.workingDirectory
  entryAt? : ∀ place, tree.entryAt? place = realm.tree.entryAt? place ∨ realm.owned place ∨
    realm.way place ∧ realm.tree.entryAt? place = none ∧ tree.entryAt? place = some .directory

variable {realm : Realm}

/-- Everything may be changed, as long as names are names. -/
def Realm.free (tree : FileTree) : Realm := { tree, owned := fun _ => True, way := fun _ => True }

namespace Realm.Bounds

theorem refl (named : realm.tree.Named) : realm.Bounds realm.tree :=
  ⟨named, rfl, fun _ => .inl rfl⟩

theorem location (bounds : realm.Bounds tree) (path : Path) : tree.location path = realm.tree.location path :=
  location_congr bounds.workingDirectory path

/-- A realm may grow. -/
theorem mono {owned : Location → Prop} (bounds : realm.Bounds tree)
    (grows : ∀ place, realm.owned place → owned place) : Realm.Bounds { realm with owned } tree :=
  ⟨bounds.named, bounds.workingDirectory, fun place => (bounds.entryAt? place).imp_right (Or.imp_left (grows place))⟩

/-- If nothing but owned places differs from before, it still differs only where it may. -/
theorem of_same (bounds : realm.Bounds tree) {after : FileTree} (named : after.Named)
    (workingDirectory : after.workingDirectory = tree.workingDirectory)
    (same : ∀ place, after.entryAt? place = tree.entryAt? place ∨ realm.owned place ∨
      realm.way place ∧ tree.entryAt? place = none ∧ after.entryAt? place = some .directory) :
    realm.Bounds after where
  named := named
  workingDirectory := workingDirectory.trans bounds.workingDirectory
  entryAt? place := by
    rcases same place with same | isOwned | ⟨onWay, missing, made⟩
    · rw [same]
      exact bounds.entryAt? place
    · exact .inr (.inl isOwned)
    · rcases bounds.entryAt? place with same | isOwned | ⟨-, -, there⟩
      · exact .inr (.inr ⟨onWay, same ▸ missing, made⟩)
      · exact .inr (.inl isOwned)
      · rw [missing] at there
        cases there

/-- A change of an owned place, or a directory that is made on the way where nothing is, stays in the realm. -/
theorem apply (bounds : realm.Bounds tree) {change : Change}
    (areNames : change.leaves?.isSome → ∀ name ∈ change.location, Path.IsName name)
    (allowed : realm.owned change.location ∨
      realm.way change.location ∧ tree.entryAt? change.location = none ∧ change.leaves? = some .directory) :
    realm.Bounds (tree.apply change) := by
  apply bounds.of_same
  · exact @Named.applyAll tree [change] bounds.named (List.forall_mem_singleton.2 areNames)
  · exact workingDirectory_apply change
  · intro place
    rw [entryAt?_apply]
    split
    · rename_i here
      rw [here.2]
      exact .inr allowed
    · exact .inl rfl

theorem applyAll (bounds : realm.Bounds tree)
    (areNames : ∀ change ∈ changes, change.leaves?.isSome → ∀ name ∈ change.location, Path.IsName name)
    (owned : ∀ change ∈ changes, realm.owned change.location) : realm.Bounds (tree.applyAll changes) := by
  induction changes generalizing tree with
  | nil => exact bounds
  | cons change rest ih =>
      rcases List.forall_mem_cons.1 areNames with ⟨changeNames, areNames⟩
      rcases List.forall_mem_cons.1 owned with ⟨changeOwned, owned⟩
      exact ih (bounds.apply changeNames (.inl changeOwned)) areNames owned

/-- What is erased needs only to be owned. -/
theorem erase (bounds : realm.Bounds tree) (erases : ∀ change ∈ changes, change.Erases)
    (owned : ∀ change ∈ changes, realm.owned change.location) : realm.Bounds (tree.applyAll changes) := by
  apply bounds.applyAll _ owned
  intro change member left
  rcases erases change member with ⟨_, rfl⟩
  cases left

end Realm.Bounds

end FileTree

namespace FileOp

open FileTree

variable {α : Type} {realm : Realm} {path source target : Path}

/-- Whether an operation changes only what is in a realm, whether it succeeds or not. -/
abbrev StaysIn (realm : Realm) (operation : FileOp α) : Prop :=
  Leads (fun before after => realm.Bounds before → realm.Bounds after) operation

theorem StaysIn.bind {β : Type} {first : FileOp α} {next : α → FileOp β} (staysIn : StaysIn realm first)
    (later : ∀ a, StaysIn realm (next a)) : StaysIn realm (first >>= next) :=
  Leads.bind (fun _ _ _ first second bounds => second (first bounds)) staysIn later

theorem staysIn_pure (a : α) : StaysIn realm (pure a : FileOp α) :=
  fun _ bounds => bounds

/-- A directory is made where it may be, if it is made at all. -/
theorem staysIn_makeDirectory (allowed : path.written ≠ [] →
    realm.owned (realm.tree.location path) ∨ realm.way (realm.tree.location path)) :
    StaysIn realm (makeDirectory path) := by
  intro tree bounds
  rcases makeDirectory_cases path tree with ⟨e, failed⟩ | ⟨parent, name, slash, resolved, absent, made⟩
  · rw [failed]
    exact bounds
  · rcases resolve_eq_name_iff.1 resolved with ⟨-, front, written, -⟩
    have allowed := allowed (by simp [written])
    rw [← bounds.location path, ← location_of_resolve resolved] at allowed
    rw [made]
    change realm.Bounds (tree.apply (.makeDirectory (parent ++ [name])))
    apply bounds.apply
    · intro _
      change ∀ other ∈ parent ++ [name], Path.IsName other
      rw [location_of_resolve resolved]
      exact bounds.named.location path
    · exact allowed.imp_right fun onWay => ⟨onWay, absent, rfl⟩

theorem staysIn_makeDirectories (allowed : ∀ above ∈ path.ancestors, above.written ≠ [] →
    realm.owned (realm.tree.location above) ∨ realm.way (realm.tree.location above)) :
    StaysIn realm (makeDirectories path) := by
  apply Leads.makeDirectoriesAlong
  · exact fun _ bounds => bounds
  · exact fun _ _ _ first second bounds => second (first bounds)
  · exact fun above member => staysIn_makeDirectory (allowed above member)

theorem staysIn_writeBytes {content : ByteArray} (owned : realm.owned (realm.tree.location path)) :
    StaysIn realm (writeBytes path content) := by
  intro tree bounds
  rw [writeBytes_eq]
  cases canWrite : writable path tree with
  | error e => exact bounds
  | ok found =>
      rcases found with ⟨place, executable⟩
      rcases location_of_writable canWrite with ⟨rfl, -, -⟩
      rw [← bounds.location path] at owned
      apply bounds.applyAll
      · intro change member _
        rcases List.mem_pair.1 member with rfl | rfl
        · exact bounds.named.location path
        · exact bounds.named.location path
      · intro change member
        rcases List.mem_pair.1 member with rfl | rfl
        · exact owned
        · exact owned

theorem staysIn_copyFile (owned : realm.owned (realm.tree.location target)) :
    StaysIn realm (copyFile source target) := by
  intro tree bounds
  rw [← bounds.location target] at owned
  apply bounds.applyAll
  · intro change member _
    rw [(location_of_mem_copyFile member).1]
    exact bounds.named.location target
  · intro change member
    rw [(location_of_mem_copyFile member).1]
    exact owned

/-- Whoever owns a place and all below it may remove it. -/
theorem staysIn_removeTree (owned : ∀ below, realm.owned (realm.tree.location path ++ below)) :
    StaysIn realm (removeTree path) := by
  intro tree bounds
  apply bounds.erase (only_removeTree path tree)
  intro change member
  rcases erases_of_mem_removeTree member with ⟨below, rfl⟩
  rw [show Change.location (.erase (tree.location path ++ below)) = tree.location path ++ below from rfl,
    bounds.location]
  exact owned below

theorem staysIn_removeDirectory (owned : realm.owned (realm.tree.location path)) :
    StaysIn realm (removeDirectory path) := by
  intro tree bounds
  apply bounds.erase (only_removeDirectory path tree)
  intro change member
  rcases removeDirectory_cases path tree with ⟨e, failed⟩ | removed
  · rw [failed] at member
    cases member
  · rw [removed] at member
    rw [List.mem_singleton.1 member]
    rwa [show Change.location (.erase (tree.location path)) = tree.location path from rfl, bounds.location]

end FileOp

end AddonIndex
