import AddonIndex.Proofs.Indexing.Relisting

/-!
# The order of listing does not matter

Every stage of the work on an addon, and the run as a whole, does the same on file systems that hold the same entries
and list them in different orders, as long as no addon has several directories that may hold its archives.
-/

namespace AddonIndex

namespace ReferenceCache

open FileTree FileOp

/-! ## The reference cache -/

theorem orderly_clear (entry : Path) : Orderly (clear entry) where
  agrees first second same := by
    have removes := (orderly_removeTree entry).agrees first second same
    simp only [run_eq] at removes ⊢
    rw [clear, clear, same.pathExists]
    split
    · exact removes
    · exact ⟨rfl, same⟩
  named tree named := by
    rw [run_eq, clear]
    split
    · exact (orderly_removeTree entry).named tree named
    · exact named

theorem orderly_writeMarker (entry : Path) (valid : Bool) : Orderly (writeMarker entry valid) :=
  orderly_writeBytes _ _

theorem orderly_prepare (cache : ReferenceCache) (addon : Text) : Orderly (cache.prepare addon) :=
  (orderly_clear _).bind fun _ => (orderly_makeDirectories _).bind fun _ => (orderly_writeMarker _ _).bind fun _ =>
    orderly_pure _

theorem orderly_copy (entry : Path) (directory : Text) (file : Reference.SourceFile) :
    Orderly (copy entry directory file) := by
  have copies : Orderly (do
      copyFile file.source (target entry directory file)
      return target entry directory file) :=
    (orderly_copyFile _ _).bind fun _ => orderly_pure _
  unfold copy
  dsimp only
  split
  · exact (orderly_makeDirectories _).bind fun _ => copies
  · exact copies

end ReferenceCache

theorem RunLog.orderly_openAt (path : Option Path) : FileOp.Orderly (RunLog.openAt path) := by
  cases path with
  | none => exact FileOp.orderly_pure _
  | some path =>
      have opens : ∀ tree, (RunLog.openAt (some path) tree).1 = (FileOp.writeBytes path ByteArray.empty tree).1 := by
        intro tree
        rw [RunLog.openAt]
        rcases FileOp.writeBytes path ByteArray.empty tree with ⟨changes, _ | _⟩
        · rfl
        · rfl
      have answers : ∀ first second : FileTree,
          (FileOp.writeBytes path ByteArray.empty second).2 = (FileOp.writeBytes path ByteArray.empty first).2 →
          (RunLog.openAt (some path) second).2 = (RunLog.openAt (some path) first).2 := by
        intro first second
        rw [RunLog.openAt, RunLog.openAt]
        rcases FileOp.writeBytes path ByteArray.empty first with ⟨changes, result⟩
        rcases FileOp.writeBytes path ByteArray.empty second with ⟨others, other⟩
        rintro ⟨⟩
        cases result with
        | error cause => rfl
        | ok _ => rfl
      have empties := FileOp.orderly_writeBytes path ByteArray.empty
      constructor
      · intro first second same
        rcases empties.agrees first second same with ⟨result, left⟩
        rw [FileOp.run_eq, FileOp.run_eq, opens first, opens second]
        exact ⟨answers first second result, left⟩
      · intro tree named
        rw [FileOp.run_eq, opens tree]
        exact empties.named tree named

namespace Indexing

open Activity FileTree FileOp ReferenceCache

variable {α : Type} {guard : World → Prop} {world after other : World} {environment : Environment}
  {selection : Selection} {cache : ReferenceCache} {addon : Handle} {tempRoot : Path}

namespace AddonWork

variable {work : AddonWork}

/-! ## The stages of the work on an addon -/

theorem steadfast_reportTool (action : Text) (input output : Path) (record : Tally → Bool → Tally)
    (result : Except ToolError ToolOutcome) : Steadfast guard (work.reportTool action input output record result) := by
  have complains : ∀ detail, Steadfast guard (do
      count (record · false)
      error (some work.addon) ("Couldn't ".toList ++ action ++ [' '] ++ input.text) (some detail)
      return false) :=
    fun detail => (steadfast_count _).bind fun _ => (steadfast_error _ _ _).bind fun _ => steadfast_pure _
  rcases result with e | outcome
  · exact complains _
  · cases outcome with
    | success => exact (steadfast_count _).bind fun _ => (steadfast_message _ _).bind fun _ => steadfast_pure _
    | _ => exact complains _

theorem steadfast_reportAborted (workers : List Text) : Steadfast guard (work.reportAborted workers) := by
  induction workers with
  | nil => exact steadfast_pure _
  | cons worker rest ih => exact (steadfast_error _ _ _).bind fun _ => ih

theorem steadfast_status : Steadfast guard work.status := by
  apply (steadfast_isCancelled _).bind
  intro cancelled
  split
  · exact steadfast_pure _
  · exact steadfast_pure _

theorem steadfast_shareOut {what : Text} {files : List Path} {doUnits : List SizedFile → Run Unit}
    (each : ∀ bucket, Steadfast guard (doUnits bucket)) : Steadfast guard (work.shareOut what files doUnits) := by
  apply Steadfast.bind
  · apply steadfast_lookAt
    intro first second same _
    simp only [measure_eq same]
  intro sized
  apply Steadfast.bind
  · apply Steadfast.bind
    · apply resembles_together
      apply List.forall₂_same.2
      rintro ⟨worker, bucket⟩ _
      exact ((steadfast_note _).bind fun _ => each bucket).mono fun _ _ _ => trivial
    · intro ended
      split
      · exact steadfast_pure _
      · exact steadfast_pure _
  · rintro (refusal | report)
    · exact steadfast_pure _
    · exact (steadfast_reportAborted _).bind fun _ => steadfast_pure _

theorem steadfast_extractEach (steady : work.environment.Steady) (destination : Path) (archives : List SizedFile) :
    Steadfast guard (work.extractEach destination archives) := by
  induction archives with
  | nil => exact steadfast_pure _
  | cons archive rest ih =>
      apply (steadfast_isCancelled _).bind
      intro cancelled
      split
      · exact steadfast_pure _
      · apply Steadfast.bind
        · exact steadfast_modify fun _ => ⟨rfl, fun _ log => ⟨log, rfl⟩⟩
        intro _
        apply (steadfast_callTool (steady.extract _ _ _)).bind
        intro result
        exact (steadfast_reportTool _ _ _ _ result).bind fun _ => (steadfast_unitDone _).bind fun _ => ih

/-- Extraction is the only stage that may depend on the order of listing. -/
theorem steadfast_extract (steady : work.environment.Steady)
    (one : ∀ world, guard world → HasOneContainer world.tree work.addon.directory) (tempRoot : Path) :
    Steadfast guard (work.extract tempRoot) := by
  have sees : Steadfast guard (lookAt (archiveContainer? work.addon.directory)) := by
    apply resembles_lookAt
    intro world guarded named tree same
    exact (archiveContainer?_eq same named (one world guarded)).symm
  apply steadfast_withStage
  apply sees.bind
  intro container
  split
  · exact steadfast_pure _
  · exact (steadfast_warning _ _ _).bind fun _ => steadfast_pure _
  · apply Steadfast.bind
    · exact steadfast_lookAt fun _ _ same named => archives_eq same named _
    intro files
    split
    · exact steadfast_pure _
    · apply (steadfast_note _).bind
      intro _
      apply (steadfast_beginWork _ _).bind
      intro _
      apply (steadfast_shareOut (steadfast_extractEach steady _)).bind
      intro shared
      split
      · exact steadfast_pure _
      · exact steadfast_status.bind fun _ => steadfast_pure _

theorem steadfast_findConfigs (directories : List Path) : Steadfast guard (work.findConfigs directories) := by
  induction directories with
  | nil => exact steadfast_pure _
  | cons directory rest ih =>
      apply (steadfast_isCancelled _).bind
      intro cancelled
      split
      · exact steadfast_pure _
      · apply Steadfast.bind
        · exact steadfast_lookAt fun _ _ same named => configFiles_eq same named _
        intro found
        apply ih.bind
        intro others
        split
        · exact steadfast_pure _
        · exact steadfast_pure _

theorem steadfast_noteTexts (texts : List Path) : Steadfast guard (noteTexts texts) := by
  induction texts with
  | nil => exact steadfast_pure _
  | cons text rest ih => exact (steadfast_note _).bind fun _ => ih

theorem steadfast_convertEach (steady : work.environment.Steady) (binaries : List SizedFile) :
    Steadfast guard (work.convertEach binaries) := by
  induction binaries with
  | nil => exact steadfast_pure _
  | cons binary rest ih =>
      apply (steadfast_isCancelled _).bind
      intro cancelled
      split
      · exact steadfast_pure _
      · apply (steadfast_callTool (steady.convert _ _ _)).bind
        intro result
        apply (steadfast_reportTool _ _ _ _ result).bind
        intro succeeded
        have goesOn : Steadfast guard (do unitDone work.addon; work.convertEach rest) :=
          (steadfast_unitDone _).bind fun _ => ih
        split
        · apply Steadfast.bind
          · exact steadfast_modify fun _ => ⟨rfl, fun _ log => ⟨log, rfl⟩⟩
          · exact fun _ => goesOn
        · exact goesOn

theorem steadfast_convert (steady : work.environment.Steady) : Steadfast guard work.convert := by
  apply steadfast_withStage
  apply Steadfast.bind
  · exact steadfast_inspect fun _ _ _ => rfl
  intro directories
  apply (steadfast_findConfigs directories).bind
  intro found
  split
  · exact steadfast_pure _
  · apply (steadfast_noteTexts _).bind
    intro _
    apply (steadfast_beginWork _ _).bind
    intro _
    apply Steadfast.bind
    · exact steadfast_modify fun _ => ⟨rfl, fun _ log => ⟨log, rfl⟩⟩
    intro _
    apply (steadfast_shareOut (steadfast_convertEach steady)).bind
    intro shared
    split
    · exact steadfast_pure _
    · apply Steadfast.bind
      · exact steadfast_inspect fun _ _ _ => rfl
      · exact fun configs => steadfast_status.bind fun _ => steadfast_pure _

theorem steadfast_parseEach (steady : work.environment.Steady) (configs : List Path) :
    Steadfast guard (work.parseEach configs) := by
  induction configs with
  | nil => exact steadfast_pure _
  | cons config rest ih =>
      have goesOn : Steadfast guard (do unitDone work.addon; work.parseEach rest) :=
        (steadfast_unitDone _).bind fun _ => ih
      apply (steadfast_isCancelled _).bind
      intro cancelled
      split
      · exact steadfast_pure _
      apply Steadfast.bind
      · apply resembles_act
        rintro world _ ⟨tree, log, named, same⟩ _
        have reads := steady.reader config (config.parent?.getD config) world.tree tree same
        constructor
        · exact congrArg ReadEffect.result reads.symm
        · change (world.cancelNamed (work.environment.reader config (config.parent?.getD config) world.tree).cancelled).Alike
            (World.cancelNamed { world with tree, log }
              (work.environment.reader config (config.parent?.getD config) tree).cancelled)
          rw [reads]
          exact (ignoresFiles_cancelNamed _).alike (.intro world tree log named same)
      intro result
      split
      · exact (steadfast_count _).bind fun _ => (steadfast_updateProgress _ _).bind fun _ =>
          (steadfast_message _ _).bind fun _ => goesOn
      · exact (steadfast_count _).bind fun _ => (steadfast_error _ _ _).bind fun _ => goesOn

theorem steadfast_parse (steady : work.environment.Steady) (configs : List Path) :
    Steadfast guard (work.parse configs) :=
  steadfast_withStage ((steadfast_beginWork _ _).bind fun _ => steadfast_parseEach steady configs)

theorem steadfast_saveEach (entry : Path) (files : List (Text × Reference.SourceFile)) :
    Steadfast guard (work.saveEach entry files) := by
  induction files with
  | nil => exact steadfast_pure _
  | cons item rest ih =>
      have goesOn : Steadfast guard (do unitDone work.addon; work.saveEach entry rest) :=
        (steadfast_unitDone _).bind fun _ => ih
      apply (steadfast_isCancelled _).bind
      intro cancelled
      split
      · exact steadfast_pure _
      · apply (steadfast_perform (orderly_copy _ _ _)).bind
        intro copied
        split
        · exact (steadfast_count _).bind fun _ => (steadfast_message _ _).bind fun _ => goesOn
        · exact (steadfast_count _).bind fun _ => (steadfast_error _ _ _).bind fun _ => goesOn

theorem steadfast_save : Steadfast guard work.save := by
  apply steadfast_withStage
  apply (steadfast_perform (orderly_prepare _ _)).bind
  intro prepared
  split
  · exact (steadfast_error _ _ _).bind fun _ => steadfast_pure _
  · apply (steadfast_updateProgress _ _).bind
    intro _
    apply Steadfast.bind
    · exact steadfast_inspect fun _ _ _ => rfl
    intro directories
    apply Steadfast.bind
    · exact steadfast_lookAt fun _ _ same named => savePlan_eq same named directories
    intro plan
    apply (steadfast_beginWork _ _).bind
    intro _
    apply (steadfast_saveEach _ plan).bind
    intro saved
    split
    · exact steadfast_pure _
    · apply (steadfast_perform (orderly_writeMarker _ _)).bind
      intro marked
      split
      · exact steadfast_pure _
      · exact (steadfast_error _ _ _).bind fun _ => steadfast_pure _

theorem steadfast_deleteEach (directories : List Path) : Steadfast guard (work.deleteEach directories) := by
  induction directories with
  | nil => exact steadfast_pure _
  | cons directory rest ih =>
      apply (steadfast_perform (orderly_removeTree _)).bind
      intro removed
      split
      · split
        · exact (steadfast_note _).bind fun _ => ih
        · exact (steadfast_warning _ _ _).bind fun _ => ih
      · exact (steadfast_note _).bind fun _ => ih

theorem steadfast_cleanup (tempRoot : Path) : Steadfast guard (work.cleanup tempRoot) := by
  apply steadfast_withStage
  apply Steadfast.bind
  · exact steadfast_inspect fun _ _ _ => rfl
  · exact fun directories => (steadfast_deleteEach directories).bind fun _ =>
      (steadfast_perform (orderly_removeDirectory _)).bind fun _ => steadfast_pure _

theorem steadfast_readFromCache (steady : work.environment.Steady) : Steadfast guard work.readFromCache := by
  apply Steadfast.bind
  · exact steadfast_lookAt fun _ _ same _ => state_eq same _ _
  intro state
  split
  · exact steadfast_pure _
  · exact (steadfast_note _).bind fun _ => steadfast_pure _
  · apply (steadfast_note _).bind
    intro _
    apply (steadfast_count _).bind
    intro _
    apply (steadfast_updateProgress _ _).bind
    intro _
    apply Steadfast.bind
    · exact steadfast_lookAt fun _ _ same named => same.findFiles named _ _
    · exact fun configs => (steadfast_parse steady configs).bind fun _ => steadfast_pure _

theorem steadfast_index (steady : work.environment.Steady)
    (one : ∀ world, guard world → HasOneContainer world.tree work.addon.directory) (tempRoot : Path) :
    Steadfast guard (work.index tempRoot) := by
  apply (steadfast_extract steady one tempRoot).bind
  intro extracted
  split
  · exact steadfast_pure _
  · exact steadfast_pure _
  · apply (steadfast_convert steady).bind
    intro converted
    split
    · exact steadfast_pure _
    · exact steadfast_pure _
    · apply (steadfast_parse steady _).bind
      intro parsed
      split
      · exact steadfast_pure _
      · exact steadfast_save.bind fun _ => steadfast_pure _

theorem steadfast_readOrIndex (steady : work.environment.Steady)
    (one : ∀ world, guard world → HasOneContainer world.tree work.addon.directory) (tempRoot : Path) :
    Steadfast guard (work.readOrIndex tempRoot) := by
  apply (steadfast_readFromCache steady).bind
  intro valid
  split
  · exact steadfast_pure _
  · exact steadfast_index steady one tempRoot

end AddonWork

/-! ## The run -/

theorem steadfast_ensureReferenceRoot (root : Path) : Steadfast guard (ensureReferenceRoot root) := by
  apply Steadfast.bind
  · exact steadfast_lookAt fun _ _ same _ => same.pathExists root
  intro there
  split
  · apply Steadfast.bind
    · exact steadfast_lookAt fun _ _ same _ => same.isDirectory root
    intro isDirectory
    split
    · exact steadfast_pure _
    · exact steadfast_pure _
  · apply (steadfast_perform (orderly_makeDirectories root)).bind
    intro made
    split
    · exact steadfast_pure _
    · exact steadfast_pure _

/-- The log may get different lines, but as many. -/
theorem resembles_noteAll {lines others : List Text} (sized : lines.length = others.length) :
    Resembles World.Alike guard Eq (noteAll lines) (noteAll others) := by
  induction lines generalizing others with
  | nil =>
      rw [List.length_eq_zero_iff.1 sized.symm]
      exact steadfast_pure _
  | cons line lines ih =>
      rcases others with _ | ⟨other, others⟩
      · cases sized
      · apply (resembles_note line other).bind
        rintro _ _ rfl
        exact ih (Nat.succ.inj sized)

/-- Addons that are left out by name are noted in the order of listing, but all that is discovered is sorted. -/
theorem steadfast_discover (selection : Selection) (roots : List Text) :
    Steadfast guard (discover selection roots) := by
  induction roots with
  | nil => exact steadfast_pure _
  | cons root rest ih =>
      apply Resembles.bind
      · apply resembles_lookAt
        intro world _ named tree same
        exact same.list named ⟨root⟩
      rintro _ _ (cause | @⟨children, others, perm, areNames⟩)
      · exact ih
      · have found : addonsIn selection ⟨root⟩ others = addonsIn selection ⟨root⟩ children :=
          sort_join_eq ⟨root⟩ perm areNames
        simp only
        rw [found]
        apply (resembles_note _ _).bind
        rintro _ _ rfl
        apply Resembles.bind
        · apply resembles_noteAll
          rw [deniedIn, deniedIn, List.length_map, List.length_map, List.length_map, List.length_map]
          exact (perm.filter _).length_eq
        rintro _ _ rfl
        apply Steadfast.bind
        · exact resembles_noteAll rfl
        intro _
        apply ih.bind
        intro directories
        exact steadfast_pure _

theorem steadfast_enroll (directories : List Path) : Steadfast guard (enroll directories) := by
  apply resembles_act
  rintro world _ ⟨tree, log, named, same⟩ _
  exact ⟨rfl, .intro _ tree log named same⟩

theorem steadfast_openLog (path : Option Path) : Steadfast guard (openLog path) := by
  apply (steadfast_perform (RunLog.orderly_openAt path)).bind
  intro opened
  split
  · exact steadfast_modify fun _ => ⟨rfl, fun _ _ => ⟨_, rfl⟩⟩
  · exact steadfast_pure _

/-- Among one more candidates than there are entries one is free. -/
theorem exists_free (tree : FileTree) (root : Path) :
    ∃ count ≤ tree.entries.length, tree.pathExists (tempRootCandidate root count) = false := by
  by_contra taken
  push Not at taken
  let place (count : Nat) : Location := tree.location root ++ [tempRootName ++ List.replicate count '_']
  have once : ((List.range (tree.entries.length + 1)).map place).Nodup := by
    apply List.Nodup.map
    · intro first second same
      simpa [place] using congrArg (List.map List.length) (List.append_cancel_left same)
    · exact List.nodup_range
  have listed : (List.range (tree.entries.length + 1)).map place ⊆ tree.entries.map Prod.fst := by
    intro other member
    rcases List.mem_map.1 member with ⟨count, inRange, rfl⟩
    have isThere := taken count (Nat.lt_succ_iff.1 (List.mem_range.1 inRange))
    rw [ne_eq, Bool.not_eq_false] at isThere
    rcases pathExists_iff.1 isThere with ⟨found, entry, isFound⟩
    rcases (find_join_name_iff (isName_candidate count)).1 isFound with ⟨-, -, -, -, -, isEntry⟩
    rw [find_location isFound, location_candidate] at isEntry
    have below : tree.location root ++ [tempRootName ++ List.replicate count '_'] ≠ [] :=
      List.append_ne_nil_of_right_ne_nil _ (List.cons_ne_nil _ _)
    exact List.mem_map_of_mem (mem_entries_of_entryAt? below isEntry)
  have length := List.Subperm.length_le (List.subperm_of_subset once listed)
  rw [List.length_map, List.length_map, List.length_range] at length
  exact Nat.not_succ_le_self _ length

/-- The first candidate that is free is chosen, if it is within the bound. -/
theorem freeTempRoot_eq {tree : FileTree} {root : Path} {bound underscores count : Nat}
    (taken : ∀ other, underscores ≤ other → other < count → tree.pathExists (tempRootCandidate root other) = true)
    (free : tree.pathExists (tempRootCandidate root count) = false) (begins : underscores ≤ count)
    (within : count ≤ underscores + bound) :
    freeTempRoot root tree bound underscores = tempRootCandidate root count := by
  induction bound generalizing underscores with
  | zero =>
      rw [freeTempRoot, Nat.le_antisymm begins within]
  | succ bound ih =>
      rw [freeTempRoot]
      by_cases here : underscores = count
      · rw [here, if_neg (by simp [free])]
      · have later : underscores < count := lt_of_le_of_ne begins here
        rw [if_pos (taken underscores le_rfl later)]
        exact ih (fun other after => taken other (Nat.le_of_succ_le after)) later (by omega)

/-- The first candidate that is free is chosen. -/
theorem exists_chooseTempRoot_eq (root : Path) (tree : FileTree) :
    ∃ count, chooseTempRoot root tree = tempRootCandidate root count ∧
      tree.pathExists (tempRootCandidate root count) = false ∧
      ∀ fewer < count, tree.pathExists (tempRootCandidate root fewer) = true := by
  classical
  rcases exists_free tree root with ⟨some, within, isFree⟩
  have anyFree : ∃ count, tree.pathExists (tempRootCandidate root count) = false := ⟨some, isFree⟩
  have bounded : Nat.find anyFree ≤ some := Nat.find_min' anyFree isFree
  have taken : ∀ fewer < Nat.find anyFree, tree.pathExists (tempRootCandidate root fewer) = true := by
    intro fewer before
    rw [← Bool.not_eq_false]
    exact Nat.find_min anyFree before
  refine ⟨Nat.find anyFree, ?_, Nat.find_spec anyFree, taken⟩
  apply freeTempRoot_eq
  · exact fun fewer _ before => taken fewer before
  · exact Nat.find_spec anyFree
  · exact Nat.zero_le _
  · omega

theorem chooseTempRoot_eq {first second : FileTree} (same : first.SameEntries second) (root : Path) :
    chooseTempRoot root second = chooseTempRoot root first := by
  rcases exists_chooseTempRoot_eq root first with ⟨count, chosen, free, taken⟩
  rcases exists_chooseTempRoot_eq root second with ⟨other, otherChosen, otherFree, otherTaken⟩
  rw [same.pathExists] at otherFree
  rcases lt_trichotomy count other with fewer | rfl | more
  · have there := otherTaken count fewer
    rw [same.pathExists, free] at there
    cases there
  · rw [chosen, otherChosen]
  · rw [taken other more] at otherFree
    cases otherFree

theorem steadfast_createTempRoot (root : Path) : Steadfast guard (createTempRoot root) := by
  apply Steadfast.bind
  · apply steadfast_lookAt
    intro first second same _
    exact chooseTempRoot_eq same root
  intro path
  apply (steadfast_perform (orderly_makeDirectory path)).bind
  intro made
  split
  · exact steadfast_pure _
  · exact steadfast_pure _

theorem steadfast_indexAddon {work : AddonWork} (steady : work.environment.Steady)
    (one : ∀ world, guard world → HasOneContainer world.tree work.addon.directory) (tempRoot : Path) :
    Steadfast guard (indexAddon work tempRoot) := by
  apply (steadfast_submit _).bind
  intro _
  apply (steadfast_note _).bind
  intro _
  apply Steadfast.bind
  · exact steadfast_modify fun _ => ⟨rfl, fun _ log => ⟨log, rfl⟩⟩
  intro _
  apply (AddonWork.steadfast_readOrIndex steady one tempRoot).bind
  intro result
  apply (AddonWork.steadfast_cleanup tempRoot).bind
  intro _
  cases result with
  | error failure => exact steadfast_pure _
  | ok status => exact (steadfast_submit _).bind fun _ => (steadfast_note _).bind fun _ => steadfast_pure _

theorem steadfast_indexEach (steady : environment.Steady) {addons : List Handle}
    (one : ∀ world, guard world → ∀ addon ∈ addons, HasOneContainer world.tree addon.directory) :
    Steadfast guard (indexEach environment cache tempRoot addons) := by
  induction addons with
  | nil => exact steadfast_pure _
  | cons addon rest ih =>
      have others := ih fun world guarded other member => one world guarded other (List.mem_cons_of_mem addon member)
      apply (steadfast_isCancelled _).bind
      intro cancelled
      split
      · exact others
      · apply Steadfast.bind
        · apply steadfast_indexAddon steady
          exact fun world guarded => one world guarded addon List.mem_cons_self
        intro result
        split
        · exact steadfast_pure _
        · exact others

theorem steadfast_collect (addons : List Handle) : Steadfast guard (collect addons) := by
  induction addons with
  | nil => exact steadfast_pure _
  | cons addon rest ih =>
      apply (steadfast_isCancelled _).bind
      intro cancelled
      split
      · exact (steadfast_count _).bind fun _ => (steadfast_note _).bind fun _ => ih
      · apply (steadfast_count _).bind
        intro _
        apply (steadfast_note _).bind
        intro _
        apply Steadfast.bind
        · exact steadfast_inspect fun _ _ _ => rfl
        · exact fun progress => ih.bind fun _ => steadfast_pure _

theorem steadfast_indexAll (steady : environment.Steady) {addons : List Handle}
    (one : ∀ world, guard world → ∀ addon ∈ addons, HasOneContainer world.tree addon.directory) (root : Path) :
    Steadfast guard (indexAll environment root addons) := by
  apply (steadfast_createTempRoot root).bind
  intro created
  split
  · exact steadfast_pure _
  · apply Steadfast.bind
    · exact steadfast_modify fun _ => ⟨rfl, fun _ log => ⟨log, rfl⟩⟩
    intro _
    apply (steadfast_note _).bind
    intro _
    apply (steadfast_indexEach steady one).bind
    rintro (failure | _)
    · exact steadfast_pure _
    · apply Steadfast.bind
      · apply (steadfast_perform (orderly_removeTree _)).bind
        intro removed
        split
        · exact steadfast_note _
        · exact steadfast_pure _
      · exact fun _ => (steadfast_collect addons).bind fun _ => steadfast_pure _

theorem steadfast_removeTempRoot : Steadfast guard removeTempRoot := by
  apply Steadfast.bind
  · exact steadfast_inspect fun _ _ _ => rfl
  intro tempRoot
  split
  · exact steadfast_pure _
  · rename_i tempRoot
    apply Steadfast.bind
    · exact steadfast_lookAt fun _ _ same _ => same.pathExists tempRoot
    intro there
    split
    · apply (steadfast_perform (orderly_removeTree tempRoot)).bind
      rintro (cause | _)
      · exact steadfast_error _ _ _
      · exact steadfast_pure _
    · exact steadfast_pure _

theorem steadfast_conclude (outcome : Except RunFailure (List Addon)) : Steadfast guard (conclude outcome) := by
  apply Steadfast.bind
  · cases outcome with
    | error failure => exact steadfast_error _ _ _
    | ok addons =>
        apply Steadfast.bind
        · exact steadfast_modify fun _ => ⟨rfl, fun _ log => ⟨log, rfl⟩⟩
        · exact fun _ => steadfast_modify fun _ => ⟨rfl, fun _ log => ⟨log, rfl⟩⟩
  · exact fun _ => (steadfast_submit _).bind fun _ => steadfast_removeTempRoot.bind fun _ => steadfast_note _

end Indexing

end AddonIndex
