import AddonIndex.Proofs.FileTree.Preservation
import AddonIndex.Proofs.Indexing.Separation
import AddonIndex.Proofs.Indexing.Upkeep
import AddonIndex.Proofs.Path.Descent

/-!
# What earlier runs left

The directory for extracted archives gets a name that nothing in the reference root has. So whatever is there under a
name that begins like it was left by somebody else. The work on an addon writes into the new directory and into the
entry of the addon, whose name begins otherwise: it leaves alone what was left, as long as its tools do.
-/

namespace AddonIndex.Indexing

open Activity FileTree FileOp Reference ReferenceCache

variable {base tree seen before after : FileTree} {root path : Path} {logPath : Option Path} {place : Location}
  {addon : Text} {names : List Text}

/-!
## Where archives are extracted to

The extraction directory of an archive is given by the name of its addon and by the stem of the archive, which may be
dots. Not even dots lead out of the directory for all extraction directories, and neither do the paths of configs that
are converted next to binary ones.
-/

section ExtractionPaths

variable {tempRoot : Path}

/-- Extraction directories are named by an addon and by the stem of an archive. -/
inductive IsUnpackedIn (tempRoot : Path) : Path → Prop
  | intro {addon stem : Text} (isName : Path.IsName addon) (nonempty : stem ≠ []) (noSlash : '/' ∉ stem) :
      IsUnpackedIn tempRoot ((tempRoot.join addon).join stem)

/-- Archives are unpacked into the directory for all of them, whatever they are called. -/
theorem isUnpackedIn_of_archives {container archive : Path} {files : List Path} (isName : Path.IsName addon)
    (named : seen.Named) (areArchives : archives container seen = .ok files) (member : archive ∈ files) :
    IsUnpackedIn tempRoot (AddonWork.extractionDirectory (tempRoot.join addon) archive) := by
  rcases haveStems_of_names named.entries areArchives archive member with ⟨stem, isStem, nonempty, noSlash⟩
  rw [extractionDirectory_eq isStem]
  exact .intro isName nonempty noSlash

theorem within_join (base : FileTree) (tempRoot : Path) (isName : Path.IsName addon) :
    base.location tempRoot <+: base.location (tempRoot.join addon) := by
  rw [location_join_name tempRoot isName]
  exact List.prefix_append _ _

/-- Not even dots lead out of the directory. -/
theorem IsUnpackedIn.within (isUnpacked : IsUnpackedIn tempRoot path) (base : FileTree) :
    base.location tempRoot <+: base.location path := by
  rcases isUnpacked with @⟨addon, stem, isName, nonempty, noSlash⟩
  have isPrefix := within_join base tempRoot isName
  rw [location_join_part _ nonempty noSlash]
  unfold Location.step
  split
  · exact isPrefix
  · split
    · have same : (base.location (tempRoot.join addon)).dropLast = base.location tempRoot := by
        rw [location_join_name _ isName, List.dropLast_concat]
      exact same ▸ List.prefix_rfl
    · exact isPrefix.trans (List.prefix_append _ _)

/-- The parent of what is below an extraction directory is within the directory too. -/
theorem IsUnpackedIn.exists_parent? {front : List Text} {name : Text} (isUnpacked : IsUnpackedIn tempRoot path)
    (base : FileTree) (areNames : ∀ other ∈ front, Path.IsName other) (isName : Path.IsName name) :
    ∃ parent, ((path.descend front).join name).parent? = some parent ∧
      base.location tempRoot <+: base.location parent := by
  rcases List.eq_nil_or_concat front with rfl | ⟨above, last, rfl⟩
  · have isPrefix := isUnpacked.within base
    rcases isUnpacked with @⟨addon, stem, isAddon, nonempty, noSlash⟩
    have ends := Path.endsInName_join tempRoot isAddon
    by_cases isHere : stem = ['.']
    · subst isHere
      exact ⟨_, Path.parent?_join_here ends isName, within_join base tempRoot isAddon⟩
    by_cases isUp : stem = ['.', '.']
    · subst isUp
      exact ⟨_, Path.parent?_join_up ends isName, isPrefix⟩
    · exact ⟨_, Path.parent?_join (Path.endsInName_join _ ⟨nonempty, noSlash, isHere, isUp⟩) isName, isPrefix⟩
  · rw [List.concat_eq_append] at areNames ⊢
    have isLast : Path.IsName last := areNames last (List.mem_append_right _ (List.mem_singleton_self _))
    refine ⟨path.descend (above ++ [last]), ?_, ?_⟩
    · rw [Path.descend_append, Path.descend_singleton]
      exact Path.parent?_join (Path.endsInName_join _ isLast) isName
    · rw [location_descend base path areNames]
      exact (isUnpacked.within base).trans (List.prefix_append _ _)

/-- A file below a path is the path itself, or is found by names. -/
theorem exists_names_of_mem_filesBelow {file : Path} (named : tree.Named) (member : file ∈ tree.filesBelow path) :
    (file = path ∧ tree.isFile path = true) ∨
      ∃ front name, file = (path.descend front).join name ∧ (∀ other ∈ front, Path.IsName other) ∧ Path.IsName name := by
  unfold filesBelow at member
  split at member
  · cases member
  · rename_i place content executable found
    exact .inl ⟨List.mem_singleton.1 member, isFile_iff.2 ⟨place, content, executable, found⟩⟩
  · rename_i place found
    rcases List.mem_filterMap.1 member with ⟨⟨relative, entry⟩, listed, same⟩
    rcases mem_below_iff.1 listed with ⟨nonempty, inEntries⟩
    rcases (List.eq_nil_or_concat relative).resolve_left nonempty with ⟨front, last, rfl⟩
    rw [List.concat_eq_append] at inEntries same
    have areNames : ∀ name ∈ front ++ [last], Path.IsName name := fun name inNames =>
      named.entries _ inEntries name (List.mem_append_right _ inNames)
    cases entry with
    | directory => cases same
    | file content executable =>
        cases same
        refine .inr ⟨front, last, ?_, fun name inFront => areNames name (List.mem_append_left _ inFront), ?_⟩
        · rw [Path.descend_append, Path.descend_singleton]
        · exact areNames last (List.mem_append_right _ (List.mem_singleton_self _))

/-- A path that leads to a file does not end in dots. -/
theorem isName_of_isFile {stem : Text} (nonempty : stem ≠ []) (noSlash : '/' ∉ stem)
    (isFile : tree.isFile (path.join stem) = true) : Path.IsName stem := by
  rcases isFile_iff.1 isFile with ⟨place, content, executable, found⟩
  rcases find_eq_ok_iff.1 found with ⟨_, -, same⟩ | ⟨parent, name, slash, resolved, -⟩
  · cases same
  · rcases resolve_eq_name_iff.1 resolved with ⟨-, front, written, notHere, notUp, -⟩
    have relative : stem.head? ≠ some '/' := fun slash => noSlash (List.mem_of_mem_head? slash)
    rw [Path.written_join relative, Path.written_part nonempty noSlash] at written
    cases List.append_inj_right' written rfl
    exact ⟨nonempty, noSlash, notHere, notUp⟩

/-- Configs are converted within the directory. -/
theorem IsUnpackedIn.within_convertedConfig {binary : Path} (isUnpacked : IsUnpackedIn tempRoot path)
    (base : FileTree) (named : seen.Named) (member : binary ∈ (configFiles path seen).binaries) :
    base.location tempRoot <+: base.location (AddonWork.convertedConfig binary) := by
  have isName : Path.IsName Reference.textConfigName := by decide
  have beside : ∀ parent, binary.parent? = some parent → binary.fileName?.isSome →
      base.location tempRoot <+: base.location parent →
        base.location tempRoot <+: base.location (AddonWork.convertedConfig binary) := by
    intro parent isParent hasName isPrefix
    rw [AddonWork.convertedConfig, Path.withFileName, if_pos hasName, isParent, Option.getD_some,
      location_join_name _ isName]
    exact isPrefix.trans (List.prefix_append _ _)
  rcases List.mem_filter.1 (List.mem_mergeSort.1 member) with ⟨inFiles, -⟩
  rcases exists_names_of_mem_filesBelow named inFiles with ⟨rfl, isFile⟩ | ⟨front, name, rfl, areNames, isFileName⟩
  · rcases isUnpacked with ⟨isAddon, nonempty, noSlash⟩
    have isStem := isName_of_isFile nonempty noSlash isFile
    apply beside _ (Path.parent?_join (Path.endsInName_join _ isAddon) isStem)
    · rw [Path.fileName?_join _ isStem]
      rfl
    · exact within_join base tempRoot isAddon
  · rcases isUnpacked.exists_parent? base areNames isFileName with ⟨parent, isParent, isPrefix⟩
    apply beside parent isParent _ isPrefix
    rw [Path.fileName?_join _ isFileName]
    rfl

end ExtractionPaths

/-! ## Leftovers -/

/-- The entries of a root whose names begin like that of the directory for extracted archives, with everything below
them. The file of the log is exempt wherever it is. -/
def leftovers (base : FileTree) (root : Path) (logPath : Option Path) : Reserve where
  tree := base
  reserved place := ∃ name below, place = base.location root ++ name :: below ∧ tempRootName <+: name ∧
    (base.entryAt? (base.location root ++ [name])).isSome
  exempt place := ∃ log ∈ logPath, place = base.location log

/-- What an addon can be called. -/
structure IsAddonName (name : Text) : Prop where
  isName : Path.IsName name
  marked : name.head? = some '@'

/-- Whether a place is at or below one in the root where nothing was. -/
def IsFree (base : FileTree) (root : Path) (place : Location) : Prop :=
  ∃ name, base.entryAt? (base.location root ++ [name]) = none ∧ base.location root ++ [name] <+: place

theorem IsFree.mono {below : Location} (isFree : IsFree base root place) (isPrefix : place <+: below) :
    IsFree base root below := by
  rcases isFree with ⟨name, nothing, atOrBelow⟩
  exact ⟨name, nothing, atOrBelow.trans isPrefix⟩

/-- What is free is neither on the way to anything that was left nor below it. -/
theorem IsFree.apart {other : Location} (isFree : IsFree base root place)
    (isReserved : (leftovers base root logPath).reserved other) : ¬ place <+: other ∧ ¬ other <+: place := by
  rcases isFree with ⟨name, nothing, isPrefix⟩
  rcases isReserved with ⟨left, below, rfl, -, there⟩
  have differ : ¬ base.location root ++ [name] <+: base.location root ++ left :: below := by
    intro both
    rw [List.prefix_append_right_inj, List.cons_prefix_cons] at both
    rw [← both.1, nothing] at there
    cases there
  constructor
  · exact fun below => differ (isPrefix.trans below)
  · intro above
    apply differ
    apply List.prefix_of_prefix_length_le isPrefix above
    simp

/-- A new directory in the root. -/
inductive IsFresh (base : FileTree) (root : Path) : Path → Prop
  | intro {name : Text} (isName : Path.IsName name) (nothing : base.entryAt? (base.location root ++ [name]) = none) :
      IsFresh base root (root.join name)

theorem IsFresh.isFree (isFresh : IsFresh base root path) : IsFree base root (base.location path) := by
  rcases isFresh with ⟨isName, nothing⟩
  rw [location_join_name root isName]
  exact ⟨_, nothing, List.prefix_rfl⟩

/-! ## The way to the root and on to addons -/

/-- Extraction directories are below a new directory in the root: they are given by the name of the addon and by the
stem of an archive, which may be dots. -/
inductive IsUnpacked (base : FileTree) (root : Path) : Path → Prop
  | intro {tempRoot : Path} {addon stem : Text} (isFresh : IsFresh base root tempRoot) (isName : Path.IsName addon)
      (nonempty : stem ≠ []) (noSlash : '/' ∉ stem) : IsUnpacked base root ((tempRoot.join addon).join stem)

theorem IsUnpacked.exists_isUnpackedIn (isUnpacked : IsUnpacked base root path) :
    ∃ tempRoot, IsFresh base root tempRoot ∧ IsUnpackedIn tempRoot path := by
  rcases isUnpacked with ⟨isFresh, isName, nonempty, noSlash⟩
  exact ⟨_, isFresh, .intro isName nonempty noSlash⟩

/-- Not even dots lead out of the new directory. -/
theorem IsUnpacked.isFree (isUnpacked : IsUnpacked base root path) : IsFree base root (base.location path) := by
  rcases isUnpacked.exists_isUnpackedIn with ⟨tempRoot, isFresh, isUnpacked⟩
  exact isFresh.isFree.mono (isUnpacked.within base)

/-- Whether what was changed at and below a root is at or below targets, apart from directories that were made on the
way to them. -/
structure Confined (root : Location) (isTarget : Location → Prop) (before after : FileTree) : Prop where
  named : before.Named → after.Named
  workingDirectory : after.workingDirectory = before.workingDirectory
  entryAt? : ∀ place, root <+: place → after.entryAt? place = before.entryAt? place ∨
    ∃ target, isTarget target ∧ (target <+: place ∨
      (place <+: target ∧ before.entryAt? place = none ∧ after.entryAt? place = some .directory))

/-- Whether tools change nothing at or below a root but what they are asked for. Elsewhere they may do anything. -/
structure Discreet (tools : ArchiveTools) (root : Path) : Prop where
  check : ∀ tree, Confined (tree.location root) (fun _ => False) tree (tools.check tree).tree
  extract : ∀ archive directory limit tree,
    Confined (tree.location root) (· = tree.location directory) tree (tools.extract archive directory limit tree).tree
  convert : ∀ binary text limit tree,
    Confined (tree.location root) (· = tree.location text) tree (tools.convert binary text limit tree).tree

theorem Confined.refl (root : Location) (isTarget : Location → Prop) (tree : FileTree) :
    Confined root isTarget tree tree :=
  ⟨id, rfl, fun _ _ => .inl rfl⟩

theorem Confined.trans {place : Location} {isTarget : Location → Prop} {first second third : FileTree}
    (left : Confined place isTarget first second) (right : Confined place isTarget second third) :
    Confined place isTarget first third where
  named named := right.named (left.named named)
  workingDirectory := right.workingDirectory.trans left.workingDirectory
  entryAt? other within := by
    rcases right.entryAt? other within with same | ⟨target, isTarget, below | ⟨above, missing, made⟩⟩
    · rw [same]
      exact left.entryAt? other within
    · exact .inr ⟨target, isTarget, .inl below⟩
    · rcases left.entryAt? other within with same | ⟨earlier, isEarlier, below | ⟨-, -, madeBefore⟩⟩
      · exact .inr ⟨target, isTarget, .inr ⟨above, same ▸ missing, made⟩⟩
      · exact .inr ⟨earlier, isEarlier, .inl below⟩
      · rw [madeBefore] at missing
        cases missing

theorem confined_plant {within target : Location} {name : Text} {planted : Entry}
    (onWay : target <+: place ++ [name] ∨ place ++ [name] <+: target ∧ planted = .directory) :
    Confined within (· = target) tree (plant tree place name planted) where
  named named := by
    unfold plant
    split
    · rename_i guard
      rcases guard with ⟨isDirectory, -, isName⟩
      have areNames : ∀ other ∈ place ++ [name], Path.IsName other := by
        intro other member
        rcases List.mem_append.1 member with inPlace | isLast
        · by_cases top : place = []
          · rw [top] at inPlace
            cases inPlace
          · rcases (Option.any_eq_true _ _).1 isDirectory with ⟨entry, there, -⟩
            exact named.entries _ (mem_entries_of_entryAt? top there) other inPlace
        · rwa [List.mem_singleton.1 isLast]
      cases planted with
      | directory =>
          exact @Named.applyAll tree [.makeDirectory (place ++ [name])] named
            (List.forall_mem_singleton.2 fun _ => areNames)
      | file content executable =>
          exact @Named.applyAll tree [.putFile (place ++ [name]) content executable] named
            (List.forall_mem_singleton.2 fun _ => areNames)
    · exact named
  workingDirectory := workingDirectory_plant
  entryAt? other _ := by
    rcases @plant_cases tree place name planted with same | ⟨-, missing, -, entryAt?⟩
    · exact .inl (by rw [same])
    · rw [entryAt?]
      split
      · rename_i here
        rw [here]
        rcases onWay with below | ⟨above, rfl⟩
        · exact .inr ⟨target, rfl, .inl below⟩
        · exact .inr ⟨target, rfl, .inr ⟨above, missing, rfl⟩⟩
      · exact .inl rfl

theorem confined_plantWay (within place : Location) (names : List Text) :
    Confined within (· = place ++ names) tree (plantWay tree place names) := by
  induction names generalizing tree place with
  | nil => exact .refl _ _ _
  | cons name rest ih =>
      rw [List.append_cons]
      apply Confined.trans _ (ih (place ++ [name]))
      exact confined_plant (.inr ⟨List.prefix_append _ _, rfl⟩)

theorem confined_plantFiles (within place : Location) (files : List (Text × Text)) :
    Confined within (· = place) tree (plantFiles place files tree) := by
  induction files generalizing tree with
  | nil => exact .refl _ _ _
  | cons file rest ih => exact (confined_plant (.inl (List.prefix_append _ _))).trans ih

/-- Tools that put files where nothing is put them only where they are asked to. -/
theorem discreet_unpackingTools (files : List (Text × Text)) (converted : Text) (root : Path) :
    Discreet (unpackingTools files converted) root where
  check _ := .refl _ _ _
  extract _ directory _ tree :=
    (confined_plantWay _ [] (tree.location directory)).trans (confined_plantFiles _ _ files)
  convert _ text _ tree := by
    apply confined_plant
    left
    rcases List.eq_nil_or_concat (tree.location text) with top | ⟨front, last, whole⟩
    · rw [top]
      exact List.nil_prefix
    · rw [whole, List.concat_eq_append, List.dropLast_concat, List.getLast?_concat]
      exact List.prefix_rfl

/-- Changes that are confined to what is free leave alone what was left. -/
theorem Confined.intact {isTarget : Location → Prop} (confined : Confined (before.location root) isTarget before after)
    (areFree : ∀ target, isTarget target → IsFree base root target)
    (intact : Intact (leftovers base root logPath) before) : Intact (leftovers base root logPath) after := by
  have same : ∀ place, (leftovers base root logPath).reserved place →
      after.entryAt? place = before.entryAt? place := by
    intro place isReserved
    have isBelow : before.location root <+: place := by
      rcases isReserved with ⟨name, below, rfl, -⟩
      rw [intact.location root]
      exact List.prefix_append _ _
    rcases confined.entryAt? place isBelow with same | ⟨target, isTarget, atOrBelow | ⟨above, -⟩⟩
    · exact same
    · exact absurd atOrBelow ((areFree target isTarget).apart isReserved).1
    · exact absurd above ((areFree target isTarget).apart isReserved).2
  constructor
  · exact confined.named intact.named
  · exact confined.workingDirectory.trans intact.workingDirectory
  · exact fun place isReserved notExempt => (same place isReserved).trans (intact.kept place isReserved notExempt)
  · intro place isReserved there
    rw [same place isReserved]
    exact intact.stays place isReserved there

/-! ## Entries -/

theorem head?_joinWith_ne_slash (areNames : ∀ name ∈ names, Path.IsName name) :
    (Text.joinWith ['/'] names).head? ≠ some '/' := by
  cases names with
  | nil => exact nofun
  | cons name names =>
      have isName := areNames name List.mem_cons_self
      rcases List.exists_cons_of_ne_nil isName.nonempty with ⟨c, rest, rfl⟩
      rw [Path.joinWith_slash]
      exact isName.head?_ne_slash

/-- What is written in the path of a copy: the directory of its archive, and the names that lead to it. -/
theorem written_target (entry source : Path) {directory : Text} (isDirectory : Path.IsName directory)
    (areNames : ∀ name ∈ names, Path.IsName name) :
    (target entry directory { source, relative := Text.joinWith ['/'] names }).written =
      entry.written ++ directory :: names := by
  have first : (entry.join directory).written = entry.written ++ [directory] := by
    rw [Path.written_join isDirectory.head?_ne_slash, Path.written_name isDirectory]
  cases names with
  | nil =>
      have relative : (Text.joinWith ['/'] []).head? ≠ some '/' := nofun
      rw [target, Path.written_join relative, first]
      exact List.append_nil _
  | cons name names =>
      rcases List.forall_mem_cons.1 areNames with ⟨isName, others⟩
      rw [target, Path.join_joinWith (Path.endsInName_join entry isDirectory) isName others,
        Path.written_descend _ areNames, first, List.append_assoc]
      rfl

section Entries

variable (found : base.find root = .ok (place, .directory)) (isAddon : IsAddonName addon)

include isAddon

include found

end Entries

/-! ## The work on an addon -/

/-- Whether what was left in a root is as it was in an earlier tree, and the directories of the run are new ones. -/
structure Unharmed (base : FileTree) (root : Path) (logPath : Option Path) (world : World) : Prop where
  intact : Intact (leftovers base root logPath) world.tree
  tempRoot : ∀ tempRoot, world.tempRoot = some tempRoot → IsFresh base root tempRoot
  extracted : ∀ directory ∈ world.extracted, IsUnpacked base root directory
  logPath : ∀ path ∈ world.logPath, path ∈ logPath

variable {world : World} {environment : Environment} {tempRoot : Path} {handle : Handle}

theorem Unharmed.of_tree (unharmed : Unharmed base root logPath world)
    (intact : Intact (leftovers base root logPath) tree) :
    Unharmed base root logPath { world with tree } :=
  ⟨intact, unharmed.tempRoot, unharmed.extracted, unharmed.logPath⟩

/-- An operation that spares what was left harms nothing. -/
theorem Unharmed.run {α : Type} {operation : FileOp α} (unharmed : Unharmed base root logPath world)
    (spares : Spares (leftovers base root logPath) operation) :
    Unharmed base root logPath { world with tree := (operation.run world.tree).1 } :=
  unharmed.of_tree (spares world.tree unharmed.intact)

end AddonIndex.Indexing
