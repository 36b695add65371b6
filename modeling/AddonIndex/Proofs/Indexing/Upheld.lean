import AddonIndex.Proofs.Indexing.Cleanup
import AddonIndex.Proofs.Indexing.Reserve

/-!
# What a run upholds

Before and after the work on addons only a few steps of a run change files: its log is opened, the reference root is
made, the tools are checked, the directory for extracted archives is made and deleted, and the log is written. A
guarantee about files that all these steps give is upheld throughout the run if it is in the turns of addons.
-/

namespace AddonIndex.Indexing

open Activity FileTree FileOp

variable {root path : Path} {logPath : Option Path} {environment : Environment} {selection : Selection}
  {tempRoot : Path} {addons : List Handle} {rely : World → Prop} {guarantee : World → World → Prop}

/-! ## Up to the turns of the addons -/

theorem upholds_openLog
    (opens : ∀ world, rely world → guarantee world { world with tree := ((RunLog.openAt logPath).run world.tree).1 })
    (logs : ∀ world log, rely world →
      guarantee world { world with log, logPath := if log.isEnabled then logPath else none }) :
    Upholds rely guarantee (openLog logPath) fun _ => True := by
  apply (upholds_perform opens).bind
  intro opened _
  split
  · exact upholds_modify fun world => logs world _
  · exact upholds_pure trivial

theorem upholds_ensureReferenceRoot (allows : AllowsSamePlaces rely guarantee)
    (makes : ∀ world, rely world → guarantee world { world with tree := ((makeDirectories root).run world.tree).1 }) :
    Upholds rely guarantee (ensureReferenceRoot root) fun _ => True := by
  apply upholds_inspect_bind allows.rests
  intro seen _
  split
  · apply upholds_inspect_bind allows.rests
    intro seen _
    split
    · exact upholds_pure trivial
    · exact upholds_pure trivial
  · apply (upholds_perform makes).bind
    intro made _
    split
    · exact upholds_pure trivial
    · exact upholds_pure trivial

theorem upholds_noteAll (allows : AllowsSamePlaces rely guarantee) (lines : List Text) :
    Upholds rely guarantee (noteAll lines) fun _ => True := by
  induction lines with
  | nil => exact upholds_pure trivial
  | cons line rest ih => exact (upholds_note allows _).bind fun _ _ => ih

/-- What is discovered in a directory is listed there under a name that is wanted. -/
theorem exists_name_of_mem_addonsIn {seen : FileTree} {directory : Path} {children : List (Text × Entry)}
    (named : seen.Named) (listed : seen.list path = .ok children) (member : directory ∈ addonsIn selection path children) :
    ∃ name, directory = path.join name ∧ IsAddonName name ∧ selection.isDenied name = false := by
  rcases List.mem_map.1 (List.mem_mergeSort.1 member) with ⟨⟨name, entry⟩, isFound, rfl⟩
  rcases List.mem_filter.1 isFound with ⟨isChild, isWanted⟩
  simp only [Bool.and_eq_true, beq_iff_eq, Bool.not_eq_true'] at isWanted
  have isName : Path.IsName name := by
    rcases bind_eq_ok_iff.1 listed with ⟨⟨place, found⟩, -, isList⟩
    cases found with
    | file content executable => cases isList
    | directory =>
        cases isList
        exact isName_of_mem_children named.entries isChild
  exact ⟨name, rfl, ⟨isName, isWanted.1.1.2⟩, isWanted.1.2⟩

/-- What is discovered in a directory is called like an addon. -/
theorem isAddonName_of_mem_addonsIn {seen : FileTree} {directory : Path} {children : List (Text × Entry)}
    (named : seen.Named) (listed : seen.list path = .ok children)
    (member : directory ∈ addonsIn selection path children) : IsAddonName (addonName directory) := by
  rcases exists_name_of_mem_addonsIn named listed member with ⟨name, rfl, isAddon, -⟩
  rwa [addonName, Path.fileName?_join path isAddon.isName]

theorem upholds_discover (allows : AllowsSamePlaces rely guarantee) (named : ∀ world, rely world → world.tree.Named)
    (roots : List Text) :
    Upholds rely guarantee (discover selection roots) fun directories =>
      ∀ directory ∈ directories, IsAddonName (addonName directory) := by
  induction roots with
  | nil => exact upholds_pure (List.forall_mem_nil _)
  | cons first rest ih =>
      apply upholds_inspect_bind allows.rests
      intro seen holds
      split
      · exact ih
      · rename_i children listed
        apply (upholds_note allows _).bind
        intro _ _
        apply (upholds_noteAll allows _).bind
        intro _ _
        apply (upholds_noteAll allows _).bind
        intro _ _
        apply ih.bind
        intro others areAddons
        apply upholds_pure
        intro directory member
        rcases List.mem_append.1 member with here | later
        · exact isAddonName_of_mem_addonsIn (named seen holds) listed here
        · exact areAddons directory later

theorem upholds_enroll (allows : AllowsSamePlaces rely guarantee) {directories : List Path}
    (areAddons : ∀ directory ∈ directories, IsAddonName (addonName directory)) :
    Upholds rely guarantee (enroll directories) fun addons => ∀ addon ∈ addons, IsAddonName addon.name := by
  apply upholds_act
  · exact fun world found => allows.follows world world _ (allows.rests world found) ⟨rfl, rfl, rfl, rfl⟩
  · intro world _ addon member
    rcases List.mem_mapIdx.1 member with ⟨index, inside, rfl⟩
    exact areAddons _ (List.getElem_mem inside)

/-! ## The directory for extracted archives -/

/-- Some of the candidates is chosen. -/
theorem exists_candidate (root : Path) (tree : FileTree) (bound underscores : Nat) :
    ∃ count, freeTempRoot root tree bound underscores = tempRootCandidate root count := by
  induction bound generalizing underscores with
  | zero => exact ⟨underscores, rfl⟩
  | succ bound ih =>
      unfold freeTempRoot
      split
      · exact ih (underscores + 1)
      · exact ⟨underscores, rfl⟩

theorem isName_candidate (count : Nat) : Path.IsName (tempRootName ++ List.replicate count '_') := by
  constructor
  · exact List.cons_ne_nil _ _
  · intro slash
    rcases List.mem_append.1 slash with inName | later
    · revert inName
      decide
    · cases (List.mem_replicate.1 later).2
  · exact nofun
  · exact nofun

theorem location_candidate (tree : FileTree) (root : Path) (count : Nat) :
    tree.location (tempRootCandidate root count) =
      tree.location root ++ [tempRootName ++ List.replicate count '_'] :=
  location_join_name root (isName_candidate count)

/-- The directory for extracted archives is of the kind that results whenever it is made. -/
theorem upholds_createTempRoot (allows : AllowsSamePlaces rely guarantee) {isTemp : Path → Prop}
    (creates : ∀ world count, rely world → guarantee world
      { world with tree := ((makeDirectory (tempRootCandidate root count)).run world.tree).1 })
    (results : ∀ world count, rely world →
      ((makeDirectory (tempRootCandidate root count)).run world.tree).2 = .ok () → isTemp (tempRootCandidate root count)) :
    Upholds rely guarantee (createTempRoot root) fun created => ∀ tempRoot, created = .ok tempRoot → isTemp tempRoot := by
  apply upholds_inspect_bind allows.rests
  intro seen _
  rcases exists_candidate root seen.tree (seen.tree.entries.length + 1) 0 with ⟨count, chosen⟩
  simp only [chooseTempRoot, chosen]
  apply Upholds.bind
  · apply upholds_perform
    exact fun world => creates world count
  rintro made ⟨world, found, isMade⟩
  split
  · apply upholds_pure
    rintro _ ⟨⟩
    exact results world count found isMade
  · exact upholds_pure nofun

/-- A guarantee that is upheld in the turn of each addon is upheld in all of them. -/
theorem upholds_indexEach (allows : AllowsSamePlaces rely guarantee) {cache : ReferenceCache}
    (each : ∀ addon ∈ addons, Upholds rely guarantee (indexAddon { environment, cache, addon } tempRoot) fun _ => True) :
    Upholds rely guarantee (indexEach environment cache tempRoot addons) fun _ => True := by
  induction addons with
  | nil => exact upholds_pure trivial
  | cons addon rest ih =>
      rcases List.forall_mem_cons.1 each with ⟨turn, each⟩
      apply upholds_inspect_bind allows.rests
      intro seen _
      split
      · exact ih each
      · apply turn.bind
        intro indexed _
        split
        · exact upholds_pure trivial
        · exact ih each

theorem upholds_collect (allows : AllowsSamePlaces rely guarantee) (addons : List Handle) :
    Upholds rely guarantee (collect addons) fun _ => True := by
  induction addons with
  | nil => exact upholds_pure trivial
  | cons addon rest ih =>
      apply upholds_inspect_bind allows.rests
      intro seen _
      split
      · exact (upholds_count allows _).bind fun _ _ => (upholds_note allows _).bind fun _ _ => ih
      · apply (upholds_count allows _).bind
        intro _ _
        apply (upholds_note allows _).bind
        intro _ _
        apply upholds_inspect_bind allows.rests
        intro progress _
        exact ih.bind fun _ _ => upholds_pure trivial

/-- A guarantee that the deletion of the directory for extracted archives gives is upheld after the turns of addons. -/
theorem upholds_gather (allows : AllowsSamePlaces rely guarantee) (outcome : Except RunFailure Unit)
    (deletes : ∀ world, rely world →
      guarantee world { world with tree := ((removeTree tempRoot).run world.tree).1 }) :
    Upholds rely guarantee (gather tempRoot addons outcome) fun _ => True := by
  cases outcome with
  | error failure => exact upholds_pure trivial
  | ok _ =>
      apply Upholds.bind
      · apply (upholds_perform deletes).bind
        intro deleted _
        split
        · exact upholds_note allows _
        · exact upholds_pure trivial
      · exact fun _ _ => (upholds_collect allows addons).bind fun _ _ => upholds_pure trivial

/-! ## The end of a run -/

theorem upholds_settle (allows : AllowsSamePlaces rely guarantee) (outcome : Except RunFailure (List Addon)) :
    Upholds rely guarantee (settle outcome) fun _ => True := by
  cases outcome with
  | ok addons =>
      apply Upholds.bind
      · exact upholds_modify_same allows fun _ => ⟨rfl, rfl, rfl, rfl⟩
      · exact fun _ _ => upholds_modify_same allows fun _ => ⟨rfl, rfl, rfl, rfl⟩
  | error failure => exact upholds_error allows _ _ _

theorem upholds_reportLeft (allows : AllowsSamePlaces rely guarantee) (tempRoot : Path)
    (deleted : Except FileError Unit) : Upholds rely guarantee (reportLeft tempRoot deleted) fun _ => True := by
  cases deleted with
  | ok _ => exact upholds_pure trivial
  | error cause => exact upholds_error allows _ _ _

theorem upholds_removal (allows : AllowsSamePlaces rely guarantee)
    (removes : ∀ world seen tempRoot, rely world → rely seen → seen.tempRoot = some tempRoot →
      guarantee world { world with tree := ((removeTree tempRoot).run world.tree).1 }) :
    Upholds rely guarantee removeTempRoot fun _ => True := by
  apply upholds_inspect_bind allows.rests
  intro seen holds
  split
  · exact upholds_pure trivial
  rename_i tempRoot isTempRoot
  apply upholds_inspect_bind allows.rests
  intro looking _
  split
  · apply Upholds.bind
    · apply upholds_perform
      exact fun world found => removes world seen tempRoot found holds isTempRoot
    · exact fun _ _ => upholds_reportLeft allows _ _
  · exact upholds_pure trivial

theorem upholds_wrapUp (allows : AllowsSamePlaces rely guarantee)
    (removes : ∀ world seen tempRoot, rely world → rely seen → seen.tempRoot = some tempRoot →
      guarantee world { world with tree := ((removeTree tempRoot).run world.tree).1 })
    (closes : ∀ world, rely world → guarantee world world.close) : Upholds rely guarantee wrapUp fun _ => True :=
  (upholds_submit allows _).bind fun _ _ => (upholds_removal allows removes).bind fun _ _ =>
    (upholds_note allows _).bind fun _ _ => upholds_modify closes

/-! ## The whole run -/

/-- Whether a guarantee is sustained in the steps in which a run changes files, and in the turns of addons. The directory
for extracted archives is of a kind that its creation leads to. -/
structure Sustains (environment : Environment) (selection : Selection) (logPath : Option Path) (isTemp : Path → Prop)
    (rely : World → Prop) (guarantee : World → World → Prop) : Prop where
  allows : AllowsSamePlaces rely guarantee
  named : ∀ world, rely world → world.tree.Named
  opens : ∀ world, rely world → guarantee world { world with tree := ((RunLog.openAt logPath).run world.tree).1 }
  logs : ∀ world log, rely world → guarantee world { world with log, logPath := if log.isEnabled then logPath else none }
  makes : ∀ world, rely world →
    guarantee world { world with tree := ((makeDirectories selection.referenceRoot).run world.tree).1 }
  checks : ∀ world, rely world → guarantee world { world with tree := (environment.tools.check world.tree).tree }
  creates : ∀ world count, rely world → guarantee world
    { world with tree := ((makeDirectory (tempRootCandidate selection.referenceRoot count)).run world.tree).1 }
  results : ∀ world count, rely world →
    ((makeDirectory (tempRootCandidate selection.referenceRoot count)).run world.tree).2 = .ok () →
      isTemp (tempRootCandidate selection.referenceRoot count)
  sets : ∀ world temp, rely world → isTemp temp → guarantee world { world with tempRoot := some temp }
  turns : ∀ addon temp, IsAddonName addon.name → isTemp temp → Upholds rely guarantee
    (indexAddon { environment, cache := ⟨selection.referenceRoot⟩, addon } temp) fun _ => True
  deletes : ∀ world temp, rely world → isTemp temp →
    guarantee world { world with tree := ((removeTree temp).run world.tree).1 }
  removes : ∀ world seen temp, rely world → rely seen → seen.tempRoot = some temp →
    guarantee world { world with tree := ((removeTree temp).run world.tree).1 }
  closes : ∀ world, rely world → guarantee world world.close

namespace Sustains

variable {isTemp : Path → Prop} (sustains : Sustains environment selection logPath isTemp rely guarantee)

include sustains

theorem upholds_indexAll (areAddons : ∀ addon ∈ addons, IsAddonName addon.name) :
    Upholds rely guarantee (indexAll environment selection.referenceRoot addons) fun _ => True := by
  apply (upholds_createTempRoot sustains.allows sustains.creates sustains.results).bind
  intro created areTemp
  split
  · exact upholds_pure trivial
  rename_i tempRoot
  have isTemp := areTemp tempRoot rfl
  apply (upholds_modify fun world found => sustains.sets world tempRoot found isTemp).bind
  intro _ _
  apply (upholds_note sustains.allows _).bind
  intro _ _
  apply Upholds.bind
  · apply upholds_indexEach sustains.allows
    exact fun addon member => sustains.turns addon tempRoot (areAddons addon member) isTemp
  intro indexed _
  exact upholds_gather sustains.allows indexed fun world found => sustains.deletes world tempRoot found isTemp

theorem upholds_attempt :
    Upholds rely guarantee (attempt environment selection logPath) fun _ => True := by
  have allows := sustains.allows
  apply (upholds_openLog sustains.opens sustains.logs).bind
  intro _ _
  apply (upholds_note allows _).bind
  intro _ _
  apply (upholds_ensureReferenceRoot allows sustains.makes).bind
  intro ensured _
  split
  · exact upholds_pure trivial
  apply (upholds_callTool allows sustains.checks).bind
  intro checked _
  split
  · exact upholds_pure trivial
  apply (upholds_discover allows sustains.named _).bind
  intro directories areAddons
  apply (upholds_enroll allows areAddons).bind
  intro addons areAddons
  exact (upholds_submit allows _).bind fun _ _ => sustains.upholds_indexAll areAddons

/-- A guarantee that is sustained is upheld throughout the run. -/
theorem upholds_run : Upholds rely guarantee (run environment selection logPath) fun _ => True := by
  rw [run_eq]
  apply sustains.upholds_attempt.bind
  intro outcome _
  apply (upholds_settle sustains.allows outcome).bind
  exact fun _ _ => upholds_wrapUp sustains.allows sustains.removes sustains.closes

end Sustains

end AddonIndex.Indexing
