import AddonIndex.Proofs.Indexing.Isolation
import AddonIndex.Proofs.Indexing.TempRoot

/-!
# Addons that are apart

An addon has places: its directory, its entry, and where its archives are extracted to. They are apart from those of
others where no other one has its name and no addon is in the reference root or around it. An addon that is apart from
the others is out of their reach until its turn, so its turn may be compared with one that comes first, which finds the
files before the run and the new directory for extracted archives.
-/

namespace AddonIndex.Indexing

open Activity FileTree FileOp Location Reference ReferenceCache

variable {root : Path} {tree first second : FileTree} {portion : Location → Prop} {place : Location} {count : Nat}
  {work : AddonWork} {among : Handle → Prop}

/-! ## Places -/

/-- The name of the directory for extracted archives with a number of underscores after it. -/
def tempName (count : Nat) : Text := tempRootName ++ List.replicate count '_'

theorem isName_tempName (count : Nat) : Path.IsName (tempName count) :=
  isName_candidate count

/-- The files that the first turn of a run finds: those before the run, and the new directory for extracted archives. -/
def firstTurn (root : Path) (tree : FileTree) : FileTree :=
  tree.apply (.makeDirectory (tree.location (chooseTempRoot root tree)))

/-- Whether a place is in the reference root. -/
def IsInside (tree : FileTree) (root : Path) (place : Location) : Prop :=
  ∃ name, tree.location root ++ [name] <+: place

theorem isInside_iff : IsInside tree root place ↔ tree.location root <+: place ∧ tree.location root ≠ place := by
  constructor
  · rintro ⟨name, rest, rfl⟩
    exact ⟨⟨name :: rest, by simp⟩, by simp⟩
  · rintro ⟨⟨rest, rfl⟩, differs⟩
    cases rest with
    | nil => exact absurd (List.append_nil _).symm differs
    | cons name rest => exact ⟨name, rest, by simp⟩

instance (tree : FileTree) (root : Path) (place : Location) : Decidable (IsInside tree root place) :=
  decidable_of_iff _ isInside_iff.symm

/-- What leads past the reference root is not in it. -/
theorem not_isInside_of_isOn {path : Path}
    (passes : ∀ passed ∈ visited (tree.start path) path.written, ¬ IsInside tree root passed)
    (below : ¬ tree.location root <+: tree.location path) (above : ¬ tree.location path <+: tree.location root)
    (isOn : tree.IsOn path place) : ¬ IsInside tree root place := by
  intro isInside
  have isBelow := (isInside_iff.1 isInside).1
  rcases isOn with passed | isAbove | beyond
  · exact passes place passed isInside
  · exact below (isBelow.trans isAbove)
  · exact (List.prefix_or_prefix_of_prefix isBelow beyond).elim below above

/-- Whether the reference root is there, and neither the way to it nor the working directory is in it. -/
structure Founded (root : Path) (tree : FileTree) : Prop where
  formed : tree.WellFormed
  isHome : tree.entryAt? tree.workingDirectory = some .directory
  rooted : tree.isDirectory root = true
  way : ∀ passed ∈ visited (tree.start root) root.written, ¬ IsInside tree root passed
  home : ¬ IsInside tree root tree.workingDirectory

namespace AddonWork

/-- The places of an addon: its directory, its entry, and where its archives are extracted to, under whatever name. -/
def Owns (work : AddonWork) (tree : FileTree) (place : Location) : Prop :=
  tree.IsOn work.addon.directory place ∨ tree.IsOn work.entry place ∨
    ∃ count, tree.IsOn (work.extractedAt (tempName count)) place

/-- The places of an addon are on the way to its directory and to the reference root, or beyond. -/
theorem Owns.isOn (owns : work.Owns tree place) (isName : Path.IsName work.addon.name) :
    tree.IsOn work.addon.directory place ∨ tree.IsOn work.cache.root place := by
  rcases owns with directory | entry | ⟨count, extracted⟩
  · exact .inl directory
  · exact .inr (IsOn.of_descend (List.forall_mem_singleton.2 isName) entry)
  · apply Or.inr
    apply @IsOn.of_descend _ _ work.cache.root [tempName count, work.addon.name] _ extracted
    exact List.forall_mem_cons.2 ⟨isName_tempName count, List.forall_mem_singleton.2 isName⟩

/-- The places that are to be left alone until the turn of an addon: its own, the directories of all addons, and the
working directory. -/
def Reserves (work : AddonWork) (among : Handle → Prop) (tree : FileTree) (place : Location) : Prop :=
  work.Owns tree place ∨ (∃ other, among other ∧ tree.IsOn other.directory place) ∨ place = tree.workingDirectory

/-- Whether an addon is apart from others: none has its name, and the directory of none is in the reference root or
around it. The archives of all have names as stems. -/
structure Apart (work : AddonWork) (among : Handle → Prop) (tree : FileTree) : Prop where
  founded : Founded work.cache.root tree
  isAddon : IsAddonName work.addon.name
  unique : ∀ other, among other → other.name = work.addon.name → other = work.addon
  areAddons : ∀ other, among other → IsAddonName other.name
  inside : among work.addon
  outside : ∀ other, among other → ∀ place, tree.IsOn other.directory place → ¬ IsInside tree work.cache.root place
  stems : ∀ other, among other → ∀ name files, Path.IsName name →
    archives (other.directory.join name) tree = .ok files →
      ∀ archive ∈ files, ∃ stem, archive.fileStem? = some stem ∧ Path.IsName stem

/-- Whether the archives of an addon do not get mixed up: they have one directory and different stems, no two binary
configs are side by side, and the configs include nothing from elsewhere. -/
structure Unmixed (work : AddonWork) (temp : Text) (base : FileTree) (portion : Location → Prop) : Prop where
  one : HasOneContainer base work.addon.directory
  nodup : ∀ files, work.listArchives base = .ok (some files) → (files.map Path.fileStem?).Nodup
  single : work.ExtractsSingleBinaries temp base
  reads : ∀ config ∈ (work.sources temp base).1,
    ReadsWithin work.environment.reader portion (work.sources temp base).2 config

/-- Whether an addon is isolated from others in a run: it is apart from them, its archives do not get mixed up, and the
log is written elsewhere. -/
structure Isolated (work : AddonWork) (among : Handle → Prop) (logPath : Option Path) (tree : FileTree) : Prop where
  apart : work.Apart among tree
  unmixed : ∀ count, chooseTempRoot work.cache.root tree = work.cache.root.join (tempName count) →
    work.Unmixed (tempName count) (firstTurn work.cache.root tree) (work.Owns tree)
  logged : ∀ log ∈ logPath, ¬ work.Reserves among tree (tree.location log)

end AddonWork

/-! ## The choice of a directory for extracted archives -/

/-- The name of the directory for extracted archives is the same where the places of all candidates are alike. -/
theorem chooseTempRoot_alike (alike : AlikeOn portion first second)
    (within : ∀ count,
      ∀ passed ∈ visited (first.start (tempRootCandidate root count)) (tempRootCandidate root count).written,
        portion passed) : chooseTempRoot root second = chooseTempRoot root first := by
  have exists_iff : ∀ count,
      second.pathExists (tempRootCandidate root count) = first.pathExists (tempRootCandidate root count) := by
    intro count
    rw [pathExists, pathExists, alike.find (within count)]
  rcases exists_chooseTempRoot_eq root first with ⟨count, chosen, free, taken⟩
  rw [← exists_iff] at free
  have searches := searches_of_taken free (Nat.zero_le count) fun fewer _ isFewer =>
    (exists_iff fewer).trans (taken fewer isFewer)
  rw [chosen]
  exact (searches_iff.1 searches).symm

theorem tempRootCandidate_eq (root : Path) (count : Nat) : tempRootCandidate root count = root.join (tempName count) :=
  rfl

theorem location_tempRoot (tree : FileTree) (root : Path) (count : Nat) :
    tree.location (root.join (tempName count)) = tree.location root ++ [tempName count] :=
  location_candidate tree root count

/-- No addon is named like a directory for extracted archives. -/
theorem IsAddonName.ne_tempName {name : Text} (isAddon : IsAddonName name) (count : Nat) : name ≠ tempName count := by
  rintro rfl
  have marked : some '_' = some '@' := isAddon.marked
  cases marked

section FirstTurn

variable (chosen : chooseTempRoot root tree = root.join (tempName count))

include chosen

theorem firstTurn_eq : firstTurn root tree = tree.apply (.makeDirectory (tree.location root ++ [tempName count])) := by
  rw [firstTurn, chosen, location_tempRoot]

theorem entryAt?_firstTurn_of_ne (elsewhere : place ≠ tree.location root ++ [tempName count]) :
    (firstTurn root tree).entryAt? place = tree.entryAt? place := by
  rw [firstTurn_eq chosen, entryAt?_apply, if_neg fun both => elsewhere both.2]

theorem entryAt?_firstTurn :
    (firstTurn root tree).entryAt? (tree.location root ++ [tempName count]) = some .directory := by
  rw [firstTurn_eq chosen, entryAt?_apply, if_pos ⟨by simp, rfl⟩]
  rfl

end FirstTurn

namespace Founded

variable (founded : Founded root tree) (chosen : chooseTempRoot root tree = root.join (tempName count))
  (nothing : tree.entryAt? (tree.location root ++ [tempName count]) = none)

include founded

theorem housed : Housed tree.workingDirectory tree :=
  ⟨founded.formed, rfl, founded.isHome⟩

theorem isRoot : tree.entryAt? (tree.location root) = some .directory :=
  isDirectory_of_isOnWay founded.housed founded.rooted (.inl List.prefix_rfl)

/-- The way to the reference root avoids whatever is in it. -/
theorem avoids (name : Text) (rest : List Text) : tree.Avoids root (tree.location root ++ name :: rest) := by
  intro passed member within
  apply founded.way passed member
  refine ⟨name, List.IsPrefix.trans ?_ within⟩
  rw [List.prefix_append_right_inj]
  exact List.cons_prefix_cons.2 ⟨rfl, List.nil_prefix⟩

include chosen nothing

/-- The first turn finds the directory for extracted archives beside what was there before. -/
theorem alike_firstTurn : AlikeOn (· ≠ tree.location root ++ [tempName count]) tree (firstTurn root tree) where
  formed := founded.formed
  formed_right := by
    rw [firstTurn_eq chosen]
    exact (founded.housed.apply rfl (isName_tempName count) founded.isRoot (nothing ▸ nofun)).formed
  workingDirectory := workingDirectory_apply _
  entryAt? _ := entryAt?_firstTurn_of_ne chosen

end Founded

/-! ## Addons that are out of each other's reach -/

namespace AddonWork

namespace Apart

variable (apart : work.Apart among tree)

include apart

/-- The only places to be left alone in the reference root are the entry of the addon and where its archives are extracted
to. -/
theorem prefix_or_prefix (reserves : work.Reserves among tree place) {name : Text} {rest : Location}
    (within : tree.location work.cache.root ++ name :: rest <+: place) :
    ∃ names, (names = [work.addon.name] ∨ ∃ count, names = [tempName count, work.addon.name]) ∧
      (name :: rest <+: names ∨ names <+: name :: rest) := by
  have isName := apart.isAddon.isName
  have avoids := apart.founded.avoids name rest
  have isInside : IsInside tree work.cache.root place :=
    ⟨name, List.IsPrefix.trans ((List.prefix_append_right_inj _).2 ⟨rest, rfl⟩) within⟩
  rcases reserves with (directory | entry | ⟨count, extracted⟩) | ⟨other, isOther, directory⟩ | rfl
  · exact absurd isInside (apart.outside _ apart.inside place directory)
  · refine ⟨_, .inl rfl, ?_⟩
    exact prefix_or_prefix_of_isOn (List.forall_mem_singleton.2 isName) avoids entry within
  · refine ⟨_, .inr ⟨count, rfl⟩, ?_⟩
    exact prefix_or_prefix_of_isOn (List.forall_mem_cons.2 ⟨isName_tempName count, List.forall_mem_singleton.2 isName⟩)
      avoids extracted within
  · exact absurd isInside (apart.outside other isOther place directory)
  · exact absurd isInside apart.founded.home

section Other

variable {other : Handle} (isOther : among other) (differs : other ≠ work.addon)

include isOther differs

theorem not_inEntry (reserves : work.Reserves among tree place) :
    ¬ tree.location (work.cache.root.join other.name) <+: place := by
  intro within
  have isAddon := apart.areAddons other isOther
  rw [location_join_name _ isAddon.isName] at within
  rcases apart.prefix_or_prefix reserves within with ⟨_, rfl | ⟨count, rfl⟩, comparable⟩
  · apply differs (apart.unique other isOther _)
    simpa [eq_comm] using comparable
  · apply isAddon.ne_tempName count
    simpa [eq_comm] using comparable

theorem not_inExtracted (reserves : work.Reserves among tree place) (count : Nat) :
    ¬ tree.location ((work.cache.root.join (tempName count)).join other.name) <+: place := by
  intro within
  have isAddon := apart.areAddons other isOther
  rw [location_join_name _ isAddon.isName, location_tempRoot, List.append_assoc] at within
  rcases apart.prefix_or_prefix reserves within with ⟨_, rfl | ⟨found, rfl⟩, comparable⟩
  · apply apart.isAddon.ne_tempName count
    simpa [eq_comm] using comparable
  · apply differs (apart.unique other isOther _)
    rcases comparable with isPrefix | isPrefix
    · have same : tempName count = tempName found ∧ other.name = work.addon.name := by simpa using isPrefix
      exact same.2
    · have same : tempName found = tempName count ∧ work.addon.name = other.name := by simpa using isPrefix
      exact same.2.symm

end Other

section FirstTurn

variable (chosen : chooseTempRoot work.cache.root tree = work.cache.root.join (tempName count))
  (nothing : tree.entryAt? (tree.location work.cache.root ++ [tempName count]) = none)

include chosen nothing

/-- The directory of an addon is as it was before the run. -/
theorem alike_directory {other : Handle} (isOther : among other) :
    AlikeOn (tree.IsOn other.directory) tree (firstTurn work.cache.root tree) where
  formed := apart.founded.formed
  formed_right := (apart.founded.alike_firstTurn chosen nothing).formed_right
  workingDirectory := (apart.founded.alike_firstTurn chosen nothing).workingDirectory
  entryAt? place isOn := by
    apply entryAt?_firstTurn_of_ne chosen
    rintro rfl
    exact apart.outside other isOther _ isOn ⟨_, List.prefix_rfl⟩

/-- The reference root is found as before the run. -/
theorem rooted_firstTurn : (firstTurn work.cache.root tree).isDirectory work.cache.root = true := by
  have alike := apart.founded.alike_firstTurn chosen nothing
  rw [FileTree.isDirectory, alike.find]
  · exact apart.founded.rooted
  · rintro passed member rfl
    exact apart.founded.way _ member ⟨_, List.prefix_rfl⟩

theorem outOfReach {other : Handle} (isOther : among other) (differs : other ≠ work.addon) :
    OutOfReach { work with addon := other } (tempName count) (firstTurn work.cache.root tree)
      (work.Reserves among tree) := by
  have alike := apart.founded.alike_firstTurn chosen nothing
  have workingDirectory := alike.workingDirectory
  have same := location_congr workingDirectory
  have home := apart.founded.isHome
  have directory : tree.Covers (work.Reserves among tree) other.directory :=
    (covers_isOn tree other.directory).mono fun place isOn => .inr (.inl ⟨other, isOther, isOn⟩)
  constructor
  · exact isName_tempName count
  · exact (apart.areAddons other isOther).isName
  · exact workingDirectory ▸ .inr (.inr rfl)
  · rw [workingDirectory, alike.entryAt?]
    · exact home
    · intro here
      rw [here, nothing] at home
      cases home
  · exact apart.rooted_firstTurn chosen nothing
  · rw [same, location_tempRoot]
    exact entryAt?_firstTurn chosen
  · intro place reserves
    rw [same]
    exact apart.not_inEntry isOther differs reserves
  · intro place reserves
    rw [same]
    exact apart.not_inExtracted isOther differs reserves count
  · exact directory.congr workingDirectory
  · intro name files isName areArchives
    apply apart.stems other isOther name files isName
    rw [← areArchives]
    symm
    exact archives_alike (apart.alike_directory chosen nothing isOther) apart.founded.housed.named
      ((covers_isOn tree other.directory).join isName)

theorem named_firstTurn : (firstTurn work.cache.root tree).Named := by
  have alike := apart.founded.alike_firstTurn chosen nothing
  refine ⟨alike.formed_right.named, ?_⟩
  rw [alike.workingDirectory]
  exact apart.founded.housed.named.start

theorem separate_firstTurn :
    Separate work.cache (tempName count) work.addon.name (firstTurn work.cache.root tree) := by
  have alike := apart.founded.alike_firstTurn chosen nothing
  have same := location_congr alike.workingDirectory
  have start : (firstTurn work.cache.root tree).start work.cache.root = tree.start work.cache.root := by
    rw [FileTree.start, FileTree.start, alike.workingDirectory]
  have entry : work.cache.entryPlace work.addon.name (firstTurn work.cache.root tree) =
      tree.location work.cache.root ++ [work.addon.name] :=
    (same _).trans (location_join_name work.cache.root apart.isAddon.isName)
  have isRoot := apart.founded.isRoot
  refine ⟨isName_tempName count, apart.isAddon.isName, (apart.isAddon.ne_tempName count).symm,
    apart.rooted_firstTurn chosen nothing, ?_, ?_, ?_⟩
  · rw [same, alike.entryAt?]
    · exact isRoot
    · intro here
      rw [here, nothing] at isRoot
      cases isRoot
  · unfold Avoids
    rw [start, entry]
    exact apart.founded.avoids work.addon.name []
  · unfold Avoids
    rw [start, same]
    exact apart.founded.avoids (tempName count) []

theorem extractable_firstTurn
    (nodup : ∀ files, work.listArchives (firstTurn work.cache.root tree) = .ok (some files) →
      (files.map Path.fileStem?).Nodup) :
    Extractable work (tempName count) (firstTurn work.cache.root tree) where
  formed := (apart.founded.alike_firstTurn chosen nothing).formed_right
  separate := apart.separate_firstTurn chosen nothing
  fresh := by
    have alike := apart.founded.alike_firstTurn chosen nothing
    have leads : tree.location (work.extractedAt (tempName count)) =
        tree.location work.cache.root ++ [tempName count] ++ [work.addon.name] := by
      rw [← location_tempRoot]
      exact location_join_name _ apart.isAddon.isName
    rw [location_congr alike.workingDirectory, leads, alike.entryAt? _ (by simp)]
    by_contra there
    rcases Option.ne_none_iff_exists'.1 there with ⟨entry, there⟩
    have above := apart.founded.formed.grounded _ _ _ there
    rw [nothing] at above
    cases above
  stems container files isContainer areArchives := by
    have listed : work.listArchives (firstTurn work.cache.root tree) = .ok (some files) := by
      unfold listArchives
      simp only [isContainer, areArchives]
    refine ⟨nodup files listed, ?_⟩
    rcases exists_join_of_archiveContainer? (apart.named_firstTurn chosen nothing) isContainer with ⟨name, isName, rfl⟩
    apply apart.stems _ apart.inside name files isName
    rw [← areArchives]
    symm
    exact archives_alike (apart.alike_directory chosen nothing apart.inside) apart.founded.housed.named
      ((covers_isOn tree work.addon.directory).join isName)

/-- The places of an addon hold what its turn is about, if it comes first. -/
theorem owned_firstTurn : work.OwnedBy (tempName count) (firstTurn work.cache.root tree) (work.Owns tree) := by
  have workingDirectory := (apart.founded.alike_firstTurn chosen nothing).workingDirectory
  constructor
  · exact ((covers_isOn tree work.addon.directory).mono fun _ => .inl).congr workingDirectory
  · exact ((covers_isOn tree work.entry).mono fun _ isOn => .inr (.inl isOn)).congr workingDirectory
  · exact ((covers_isOn tree _).mono fun _ isOn => .inr (.inr ⟨count, isOn⟩)).congr workingDirectory

/-- What is before the turn of an addon is left alone until then. -/
theorem indexable (unmixed : work.Unmixed (tempName count) (firstTurn work.cache.root tree) (work.Owns tree)) :
    work.Indexable (tempName count) (firstTurn work.cache.root tree) (work.Reserves among tree) where
  extractable := apart.extractable_firstTurn chosen nothing unmixed.nodup
  named := apart.named_firstTurn chosen nothing
  owned := (apart.owned_firstTurn chosen nothing).mono fun _ => .inl
  one := unmixed.one
  single := unmixed.single
  reads config member := (unmixed.reads config member).mono fun _ => .inl

end FirstTurn

end Apart

end AddonWork

end AddonIndex.Indexing
