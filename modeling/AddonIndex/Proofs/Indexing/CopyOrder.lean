import AddonIndex.Proofs.FileTree.Confluence
import AddonIndex.Proofs.Indexing.ListingOrder
import AddonIndex.Proofs.Indexing.Saving
import AddonIndex.Proofs.Reference.Neighbour

/-!
# Extraction directories are saved in any order

What is saved from an extraction directory is copied below its name in the entry. So the copies from one directory do
not see those from another one: however the directories are ordered, the entry holds the same in the end, and as many
files cannot be copied.
-/

namespace AddonIndex.Indexing

open FileTree FileOp Reference ReferenceCache

variable {work : AddonWork} {temp : Text} {base tree first second : FileTree} {directories others : List Path}
  {entry : Path} {place : Location} {plan : List (Text × SourceFile)} {item : Text × SourceFile} {stem : Text}

/-! ## Copies one after another -/

/-- The file that is missed if its copy fails, with the cause. -/
def missed {α : Type} (file : SourceFile) : Except FileError α → List (SourceFile × FileError)
  | .ok _ => []
  | .error cause => [(file, cause)]

theorem copyEach_cons (entry : Path) (item : Text × SourceFile) (rest : List (Text × SourceFile)) (tree : FileTree) :
    copyEach entry (item :: rest) tree =
      ((copyEach entry rest ((copy entry item.1 item.2).run tree).1).1,
        missed item.2 ((copy entry item.1 item.2).run tree).2 ++
          (copyEach entry rest ((copy entry item.1 item.2).run tree).1).2) := by
  rcases item with ⟨stem, file⟩
  rw [copyEach]
  rcases (copy entry stem file).run tree with ⟨next, _ | _⟩
  · rfl
  · rfl

theorem copyEach_append (entry : Path) (plan more : List (Text × SourceFile)) (tree : FileTree) :
    copyEach entry (plan ++ more) tree = ((copyEach entry more (copyEach entry plan tree).1).1,
      (copyEach entry plan tree).2 ++ (copyEach entry more (copyEach entry plan tree).1).2) := by
  induction plan generalizing tree with
  | nil => rfl
  | cons item rest ih =>
      rw [List.cons_append, copyEach_cons, ih, copyEach_cons, List.append_assoc]

/-- What each copy keeps is kept by all of them. -/
theorem holds_of_copyEach {holds : FileTree → Prop}
    (kept : ∀ item ∈ plan, ∀ tree, holds tree → holds ((copy entry item.1 item.2).run tree).1) (begins : holds tree) :
    holds (copyEach entry plan tree).1 := by
  induction plan generalizing tree with
  | nil => exact begins
  | cons item rest ih =>
      rw [copyEach_cons]
      apply ih fun other member => kept other (List.mem_cons_of_mem _ member)
      exact kept item List.mem_cons_self tree begins

/-- Copies that look past a place make the same of trees that differ only there. -/
theorem repeats_copyEach (looksPast : ∀ item ∈ plan, LooksPast base place (copy entry item.1 item.2))
    (begins : first.workingDirectory = base.workingDirectory) (within : ChangesWithin place first second) :
    Repeats (copyEach entry plan) first second := by
  induction plan generalizing first second with
  | nil => exact ⟨rfl, fun _ same => same⟩
  | cons item rest ih =>
      rcases List.forall_mem_cons.1 looksPast with ⟨looks, looksPast⟩
      have same := looks first second begins within
      have changed := within.applyAll (copy entry item.1 item.2 first).1
      have later := ih looksPast ((workingDirectory_applyAll _ _).trans begins) changed
      constructor
      · rw [copyEach_cons, copyEach_cons, FileOp.run_eq, FileOp.run_eq, same, later.answer]
      · intro other agree
        rw [copyEach_cons, copyEach_cons, FileOp.run_eq, FileOp.run_eq, same]
        exact later.entryAt? other (entryAt?_applyAll_congr agree _)

/-- Copies make the same of trees that hold the same entries. -/
theorem copyEach_sameEntries (same : first.SameEntries second) :
    (copyEach entry plan first).1.SameEntries (copyEach entry plan second).1 ∧
      (copyEach entry plan second).2 = (copyEach entry plan first).2 := by
  induction plan generalizing first second with
  | nil => exact ⟨same, rfl⟩
  | cons item rest ih =>
      rcases (orderly_copy entry item.1 item.2).agrees first second same with ⟨result, copied⟩
      rcases ih copied with ⟨trees, failures⟩
      rw [copyEach_cons, copyEach_cons, result, failures]
      exact ⟨trees, rfl⟩

/-- The scene after copies. -/
theorem foldl_copy (entry : Path) (plan : List (Text × SourceFile)) (scene : Scene) :
    plan.foldl (Scene.copy entry) scene = { scene with
      tree := (copyEach entry plan scene.tree).1
      errors := scene.errors + (copyEach entry plan scene.tree).2.length } := by
  induction plan generalizing scene with
  | nil => rfl
  | cons item rest ih =>
      rw [List.foldl_cons, ih, copyEach_cons, Scene.copy]
      rcases (copy entry item.1 item.2).run scene.tree with ⟨tree, cause | target⟩
      · simp only [missed, List.length_append, List.length_singleton, Nat.add_assoc]
      · simp only [missed, List.nil_append]

/-! ## The copies from one extraction directory -/

namespace AddonWork

/-- What is saved from the extraction directory of a name. -/
def planOf (work : AddonWork) (temp : Text) (base : FileTree) (stem : Text) : List (Text × SourceFile) :=
  savePlan [(work.extractedAt temp).join stem] base

/-- The copies of what is saved from an extraction directory. -/
def copiesOf (work : AddonWork) (temp : Text) (base : FileTree) (stem : Text) (tree : FileTree) :
    FileTree × List (SourceFile × FileError) :=
  copyEach work.entry (work.planOf temp base stem) tree

theorem savePlan_eq_flatMap (temp : Text) (base : FileTree) (stems : List Text) :
    savePlan (stems.map (work.extractedAt temp).join) base = stems.flatMap (work.planOf temp base) := by
  have one : ∀ stem, work.planOf temp base stem = _ := fun stem => List.flatMap_singleton _ _
  rw [funext one, savePlan, List.flatMap_map]

/-- To save all extraction directories is to save each of them. -/
theorem copyEach_savePlan (temp : Text) (base : FileTree) (stems : List Text) (tree : FileTree) :
    copyEach work.entry (savePlan (stems.map (work.extractedAt temp).join) base) tree =
      ((doEach (work.copiesOf temp base) stems tree).1,
        (doEach (work.copiesOf temp base) stems tree).2.flatMap Prod.snd) := by
  rw [savePlan_eq_flatMap]
  induction stems generalizing tree with
  | nil => rfl
  | cons stem rest ih =>
      rw [List.flatMap_cons, copyEach_append, ih, doEach_cons]
      rfl

/-- Whether extraction directories are ready to be saved: they are laid out in a tree with the entry, which differs
from the present one only in the entry. -/
structure Savable (work : AddonWork) (temp : Text) (base : FileTree) (stems : List Text) (tree : FileTree) :
    Prop where
  nodup : stems.Nodup
  laidOut : LaidOut work temp (stems.map (work.extractedAt temp).join) base
  areNames : ∀ stem ∈ stems, Path.IsName stem
  distinct : tree.Distinct
  named : tree.Named
  workingDirectory : tree.workingDirectory = base.workingDirectory
  found : tree.find work.entry = .ok (work.cache.entryPlace work.addon.name base, .directory)

variable {stems rest : List Text} {other : Text}

theorem Savable.mono (savable : work.Savable temp base stems tree) (nodup : rest.Nodup) (among : rest ⊆ stems) :
    work.Savable temp base rest tree where
  nodup := nodup
  laidOut := ⟨savable.laidOut.formed, savable.laidOut.separate,
    fun directory member => savable.laidOut.sideBySide.named directory (List.map_subset _ among member),
    fun directory member => savable.laidOut.sideBySide.noFile directory (List.map_subset _ among member)⟩
  areNames stem member := savable.areNames stem (among member)
  distinct := savable.distinct
  named := savable.named
  workingDirectory := savable.workingDirectory
  found := savable.found

/-- What is planned for an extraction directory is below it. -/
theorem Savable.mem_planOf (savable : work.Savable temp base stems tree) (isStem : stem ∈ stems)
    (member : item ∈ work.planOf temp base stem) : ∃ names, names ≠ [] ∧ (∀ name ∈ names, Path.IsName name) ∧
      item = (stem, { source := (work.extractedAt temp).descend (stem :: names)
                      relative := Text.joinWith ['/'] names }) := by
  have single := savable.mono (List.nodup_singleton stem) (List.cons_subset.2 ⟨isStem, List.nil_subset _⟩)
  rcases (mem_savePlan_iff single.laidOut.formed single.laidOut.sideBySide).1 member with
    ⟨other, names, extracted, -, rfl⟩
  rcases extracted.names single.laidOut.formed with ⟨nonempty, areNames⟩
  rcases extracted with ⟨_, _, ⟨⟩, otherIsName, isDirectory, -⟩
  have names := congrArg Path.fileName? (List.mem_singleton.1 isDirectory)
  rw [Path.fileName?_join _ otherIsName, Path.fileName?_join _ (savable.areNames stem isStem)] at names
  cases names
  exact ⟨_, nonempty, fun name inNames => areNames name (List.mem_cons_of_mem _ inNames), rfl⟩

end AddonWork

/-! ## What copies from different directories see -/

section Ways

variable {cache : ReferenceCache} {addon other : Text} {names : List Text}

theorem avoids_below {path : Path} {below : Location} (avoids : tree.Avoids path place)
    (isPrefix : place <+: below) : tree.Avoids path below :=
  fun passed member isBelow => avoids passed member (isPrefix.trans isBelow)

/-- The way to the entry does not lead below it. -/
theorem Separate.avoids_entry (separate : Separate cache temp addon tree) (stem : Text) :
    tree.Avoids (cache.entry addon) (cache.entryPlace addon tree ++ [stem]) := by
  rw [ReferenceCache.entry_eq, ← Path.descend_singleton]
  apply (avoids_below separate.avoids (List.prefix_append _ _)).descend
  · exact List.forall_mem_singleton.2 separate.isName
  intro front nonempty isPrefix within
  have length := within.length_le
  have atMost := isPrefix.length_le
  rw [separate.entryPlace_eq] at length
  simp only [List.length_append, List.length_singleton] at length atMost
  omega

/-- The way to what is kept below a name does not lead below another one. -/
theorem Separate.avoids_target (separate : Separate cache temp addon tree) (differ : stem ≠ other)
    (areNames : ∀ name ∈ other :: names, Path.IsName name) :
    tree.Avoids ((cache.entry addon).descend (other :: names)) (cache.entryPlace addon tree ++ [stem]) := by
  apply (separate.avoids_entry stem).descend areNames
  intro front nonempty isPrefix within
  rcases (List.prefix_cons_iff.1 isPrefix).resolve_left nonempty with ⟨rest, rfl, -⟩
  rw [ReferenceCache.entryPlace, List.prefix_append_right_inj, List.cons_prefix_cons] at within
  exact differ within.1

end Ways

namespace AddonWork

variable {stems rest : List Text} {other : Text}

/-- Where an addon is kept that is saved from a tree. -/
abbrev placeIn (work : AddonWork) (base : FileTree) : Location := work.cache.entryPlace work.addon.name base

theorem Savable.isTarget (savable : work.Savable temp base stems tree) (isStem : stem ∈ stems) {names : List Text}
    (nonempty : names ≠ []) (areNames : ∀ name ∈ names, Path.IsName name) (source : Path) :
    target work.entry stem { source, relative := Text.joinWith ['/'] names } = work.entry.descend (stem :: names) := by
  rcases List.exists_cons_of_ne_nil nonempty with ⟨name, more, rfl⟩
  exact target_eq (savable.areNames stem isStem) (areNames name List.mem_cons_self)
    fun other member => areNames other (List.mem_cons_of_mem _ member)

/-- The copies from an extraction directory change nothing but what is below its name in the entry. -/
theorem Savable.changesWithin (savable : work.Savable temp base stems tree) (isStem : stem ∈ stems) :
    ChangesWithin (work.placeIn base ++ [stem]) tree (work.copiesOf temp base stem tree).1 := by
  have avoids := (savable.laidOut.separate.avoids_entry stem).start_congr savable.workingDirectory
  apply @holds_of_copyEach _ _ _ fun next => ChangesWithin (work.placeIn base ++ [stem]) tree next
  · intro item member next within
    rcases savable.mem_planOf isStem member with ⟨names, nonempty, areNames, rfl⟩
    have found := avoids.find_eq within.workingDirectory within.elsewhere
    apply within.trans
    apply changesWithin_copy (Path.endsInName_join _ savable.laidOut.separate.isName) (savable.areNames stem isStem)
      areNames nonempty (savable.isTarget isStem nonempty areNames _)
    · exact avoids.start_congr within.workingDirectory
    · exact found.trans savable.found
  · exact .refl _ _

/-- The copies from an extraction directory do not see those from another one. -/
theorem Savable.looksPast (savable : work.Savable temp base stems tree) (isStem : other ∈ stems)
    (differ : stem ≠ other) :
    ∀ item ∈ work.planOf temp base other, LooksPast base (work.placeIn base ++ [stem]) (copy work.entry item.1 item.2) := by
  intro item member
  rcases savable.mem_planOf isStem member with ⟨names, nonempty, areNames, rfl⟩
  have allNames := List.forall_mem_cons.2 ⟨savable.areNames other isStem, areNames⟩
  apply looksPast_copy
  · exact avoids_below (savable.laidOut.separate.avoids_extracted allNames) (List.prefix_append _ _)
  · rw [savable.isTarget isStem nonempty areNames]
    exact savable.laidOut.separate.avoids_target differ allNames

/-- Extraction directories can be saved in any order. -/
theorem independent_copiesOf : Independent (work.copiesOf temp base)
    (fun stem place => work.placeIn base ++ [stem] <+: place) (fun _ => False) (work.Savable temp base) where
  distinct savable := savable.distinct
  perm savable perm := savable.mono (perm.nodup_iff.1 savable.nodup) perm.symm.subset
  relist savable same := { savable with
    distinct := same.distinct_right
    named := same.named savable.named
    workingDirectory := same.workingDirectory.trans savable.workingDirectory
    found := (same.find _).trans savable.found }
  step {stem rest tree} savable := by
    have within := savable.changesWithin List.mem_cons_self
    have avoids := (savable.laidOut.separate.avoids_entry stem).start_congr savable.workingDirectory
    have goesOn := savable.mono savable.nodup.of_cons (List.subset_cons_self stem rest)
    have kept : (work.copiesOf temp base stem tree).1.Distinct ∧ (work.copiesOf temp base stem tree).1.Named := by
      apply @holds_of_copyEach _ _ _ fun next => next.Distinct ∧ next.Named
      · exact fun item _ next kept => ⟨distinct_run kept.1 rfl, (orderly_copy _ _ _).named next kept.2⟩
      · exact ⟨savable.distinct, savable.named⟩
    exact { goesOn with
      distinct := kept.1
      named := kept.2
      workingDirectory := within.workingDirectory.trans savable.workingDirectory
      found := (avoids.find_eq within.workingDirectory within.elsewhere).trans savable.found }
  bounds {stem rest tree} savable := by
    have within := savable.changesWithin List.mem_cons_self
    refine ⟨?_, within.workingDirectory, fun place => ?_⟩
    · apply @holds_of_copyEach _ _ _ FileTree.Named
      · exact fun item _ next named => (orderly_copy _ _ _).named next named
      · exact savable.named
    · by_cases isOwn : work.placeIn base ++ [stem] <+: place
      · exact .inr (.inl isOwn)
      · exact .inl (within.elsewhere place isOwn)
  apart {one other rest tree} savable place isOne isOther := by
    have differ := List.ne_of_not_mem_cons (List.nodup_cons.1 savable.nodup).1
    exact differ (eq_of_isPrefix_concat isOne isOther)
  offWay _ _ _ := id
  repeats {one other rest tree} savable := by
    have differ := List.ne_of_not_mem_cons (List.nodup_cons.1 savable.nodup).1
    apply repeats_copyEach _ savable.workingDirectory (savable.changesWithin List.mem_cons_self)
    exact savable.looksPast (List.mem_cons_of_mem _ List.mem_cons_self) differ
  same _ same := by
    rcases @copyEach_sameEntries _ _ work.entry _ same with ⟨trees, failures⟩
    exact ⟨failures, fun place _ => trees.entryAt? place⟩

/-- The names of extraction directories. -/
def stemsOf (directories : List Path) : List Text := directories.map fun directory => directory.fileName?.getD []

theorem stemsOf_spec {origin : Path} (sideBySide : SideBySide origin directories tree) :
    (stemsOf directories).map origin.join = directories ∧ ∀ stem ∈ stemsOf directories, Path.IsName stem := by
  have each : ∀ directory ∈ directories, origin.join (directory.fileName?.getD []) = directory ∧
      Path.IsName (directory.fileName?.getD []) := by
    intro directory member
    rcases sideBySide.named directory member with ⟨stem, isName, rfl⟩
    rw [Path.fileName?_join origin isName]
    exact ⟨rfl, isName⟩
  constructor
  · rw [stemsOf, List.map_map]
    exact (List.map_congr_left fun directory member => (each directory member).1).trans (List.map_id _)
  · exact List.forall_mem_map.2 fun directory member => (each directory member).2

/-- Extraction directories that are laid out are ready to be saved to an entry that was prepared. -/
theorem savable_of_prepare (laidOut : LaidOut work temp directories tree) (nodup : directories.Nodup)
    (named : tree.Named) {base : FileTree}
    (prepared : (work.cache.prepare work.addon.name).run tree = (base, .ok work.entry)) :
    work.Savable temp base (stemsOf directories) base := by
  rcases laidOut with ⟨formed, separate, sideBySide⟩
  rcases stemsOf_spec sideBySide with ⟨areDirectories, areNames⟩
  rcases holds_of_prepare formed separate.isName separate.rooted separate.avoids prepared with
    ⟨-, within, found, holds⟩
  have formedBase := separate.hasPlace.wellFormed_of_holds formed (distinct_run formed.distinct prepared) within holds
    fun _ _ impossible => impossible.elim
  have isNamed := (orderly_prepare work.cache work.addon.name).named tree named
  rw [prepared] at isNamed
  have place : work.cache.entryPlace work.addon.name base = work.cache.entryPlace work.addon.name tree :=
    within.location _
  exact
    { nodup := List.Nodup.of_map (work.extractedAt temp).join (areDirectories.symm ▸ nodup)
      laidOut := ⟨formedBase, separate.of_changesWithin within,
        areDirectories.symm ▸ separate.sideBySide within sideBySide⟩
      areNames
      distinct := formedBase.distinct
      named := isNamed
      workingDirectory := rfl
      found := place.symm ▸ found }

/-- Whatever the order of the extraction directories, the entry holds the same in the end, and as many files cannot
be copied. -/
theorem copyEach_perm (savable : work.Savable temp base (stemsOf directories) base)
    (sideBySide : SideBySide (work.extractedAt temp) directories tree) (perm : directories.Perm others)
    {again : FileTree} (same : base.SameEntries again) :
    (copyEach work.entry (savePlan directories base) base).1.SameEntries
        (copyEach work.entry (savePlan others again) again).1 ∧
      (copyEach work.entry (savePlan others again) again).2.length =
        (copyEach work.entry (savePlan directories base) base).2.length := by
  have otherSideBySide : SideBySide (work.extractedAt temp) others tree :=
    ⟨fun directory member => sideBySide.named directory (perm.mem_iff.2 member),
      fun directory member => sideBySide.noFile directory (perm.mem_iff.2 member)⟩
  have stems : (stemsOf directories).Perm (stemsOf others) := perm.map _
  rcases independent_copiesOf.doEach_perm stems savable same with ⟨trees, answers⟩
  have plan : savePlan others again = savePlan others base := savePlan_eq same savable.named others
  rw [plan, ← (stemsOf_spec sideBySide).1, ← (stemsOf_spec otherSideBySide).1, copyEach_savePlan, copyEach_savePlan]
  exact ⟨trees, (answers.flatMap_right Prod.snd).length_eq.symm⟩

end AddonWork

/-! ## The stage -/

/-- Whether two scenes hold the same, but list the entries and the extraction directories in whatever order. -/
structure Scene.Reordered (first second : Scene) : Prop where
  tree : first.tree.SameEntries second.tree
  extracted : first.extracted.Perm second.extracted
  configs : second.configs = first.configs
  errors : second.errors = first.errors

/-- If an entry can be prepared, the files are copied, and then it can be marked as complete. -/
theorem Scene.exists_save_eq {cache : ReferenceCache} {addon : Text} {scene : Scene} (formed : scene.tree.WellFormed)
    (prepared : (cache.prepare addon).run scene.tree = (base, .ok entry)) :
    ∃ marked,
      (markValid (cache.entry addon)).run
        (copyEach (cache.entry addon) (AddonWork.savePlan scene.extracted base) base).1 = (marked, .ok ()) ∧
      scene.save cache addon = (.completed, { scene with
        tree := marked
        errors := scene.errors +
          (copyEach (cache.entry addon) (AddonWork.savePlan scene.extracted base) base).2.length }) := by
  have named := namesFiles_of_prepare formed prepared
  rcases hasMarker_of_prepare prepared with ⟨rfl, hasMarker⟩
  have marker : cache.HasMarker addon false
      (copyEach (cache.entry addon) (AddonWork.savePlan scene.extracted base) base).1 :=
    holds_of_copyEach (fun _ member _ => hasMarker_copy named member) hasMarker
  rcases exists_of_markValid marker with ⟨marked, marks, -⟩
  refine ⟨marked, marks, ?_⟩
  rw [Scene.save, prepared]
  simp only
  rw [foldl_copy, Scene.mark, marks]

/-- Scenes in another order are saved with the same status, and their order is all they differ in afterwards. -/
theorem Scene.Reordered.save {first second : Scene} (reordered : first.Reordered second)
    (laidOut : LaidOut work temp first.extracted first.tree) (nodup : first.extracted.Nodup)
    (named : first.tree.Named) :
    (second.save work.cache work.addon.name).1 = (first.save work.cache work.addon.name).1 ∧
      (first.save work.cache work.addon.name).2.Reordered (second.save work.cache work.addon.name).2 := by
  rcases reordered with ⟨same, perm, configs, errors⟩
  rcases (orderly_prepare work.cache work.addon.name).agrees _ _ same with ⟨answer, prepares⟩
  cases prepared : (work.cache.prepare work.addon.name).run first.tree with
  | mk base result =>
      cases preparedAgain : (work.cache.prepare work.addon.name).run second.tree with
      | mk again resultAgain =>
          rw [prepared, preparedAgain] at answer prepares
          obtain rfl : resultAgain = result := answer
          cases resultAgain with
          | error cause =>
              rw [Scene.save, Scene.save, prepared, preparedAgain]
              exact ⟨rfl, prepares, perm, configs, congrArg (· + 1) errors⟩
          | ok entry =>
              obtain rfl := (hasMarker_of_prepare prepared).1
              have savable := AddonWork.savable_of_prepare laidOut nodup named prepared
              rcases AddonWork.copyEach_perm savable laidOut.sideBySide perm prepares with ⟨copied, missedAlike⟩
              rcases Scene.exists_save_eq laidOut.formed prepared with ⟨marked, marks, saved⟩
              rcases Scene.exists_save_eq (same.wellFormed laidOut.formed) preparedAgain with
                ⟨markedAgain, marksAgain, savedAgain⟩
              have markedAlike := ((orderly_writeMarker work.entry true).agrees _ _ copied).2
              change ((markValid work.entry).run _).1.SameEntries ((markValid work.entry).run _).1 at markedAlike
              rw [marks, marksAgain] at markedAlike
              rw [saved, savedAgain]
              exact ⟨rfl, markedAlike, perm, configs, congrArg₂ (· + ·) errors missedAlike⟩

end AddonIndex.Indexing
