import AddonIndex.Proofs.Indexing.Course

/-!
# Invariants of the work on an addon

Only a few steps of the work on an addon change files or the list of extraction directories, and what they are about
was listed in a world before. A guarantee about files that these steps give is upheld throughout the work, whatever the
workers do and in whatever order; an invariant about files is a guarantee on which later steps rely.
-/

namespace AddonIndex.Indexing

open Activity

variable {α β : Type} {inv rely : World → Prop} {guarantee : World → World → Prop} {addon : Handle}
  {world after : World}

/-- Whether two worlds have the same files, the same directories of a run and the same file for its log. -/
structure SamePlaces (before after : World) : Prop where
  tree : after.tree = before.tree
  extracted : after.extracted = before.extracted
  tempRoot : after.tempRoot = before.tempRoot
  logPath : after.logPath = before.logPath

theorem samePlaces_cancelNamed (world : World) (names : List Text) : SamePlaces world (world.cancelNamed names) :=
  @holds_cancelNamed world (SamePlaces world) names ⟨rfl, rfl, rfl, rfl⟩ fun _ _ same =>
    ⟨same.tree, same.extracted, same.tempRoot, same.logPath⟩

/-- Whether a guarantee is about the files, the directories of a run and the file for its log. -/
structure AllowsSamePlaces (rely : World → Prop) (guarantee : World → World → Prop) : Prop where
  rests : ∀ world, rely world → guarantee world world
  follows : ∀ world middle after, guarantee world middle → SamePlaces middle after → guarantee world after

/-- Whether an invariant is about the files, the directories of a run and the file for its log. -/
def IsAboutPlaces (inv : World → Prop) : Prop :=
  ∀ world after, SamePlaces world after → inv world → inv after

theorem IsAboutPlaces.allows (about : IsAboutPlaces inv) : AllowsSamePlaces inv fun _ => inv where
  rests _ := id
  follows _ middle after found same := about middle after same found

theorem IsAboutPlaces.interference (about : IsAboutPlaces inv) (interferes : Interference world after)
    (found : inv world) : inv after := by
  cases interferes with
  | cancel addon => exact about world _ ⟨rfl, rfl, rfl, rfl⟩ found
  | deliver => exact about world _ ⟨rfl, rfl, rfl, rfl⟩ found

theorem IsAboutPlaces.gap (about : IsAboutPlaces inv) (gap : Relation.ReflTransGen Interference world after)
    (found : inv world) : inv after := by
  induction gap with
  | refl => exact found
  | tail _ last ih => exact about.interference last ih

/-- An invariant about files that an activity keeps holds throughout its executions. -/
theorem IsAboutPlaces.reached {activity : Run α} {kind : α → Prop} {moves : List (Move World)} {result : Option α}
    (about : IsAboutPlaces inv) (keeps : Keeps inv activity kind)
    (execution : Executes Interference activity world moves after result) (begins : inv world) :
    (∀ move ∈ moves, inv move.1 ∧ inv move.2) ∧ inv after ∧ ∀ answer, result = some answer → kind answer :=
  keeps.reached (fun _ _ => about.interference) execution begins

/-! ## Single steps -/

section Steps

variable (allows : AllowsSamePlaces rely guarantee)

include allows

theorem upholds_modify_same {change : World → World} (same : ∀ world, SamePlaces world (change world)) :
    Upholds rely guarantee (modify change) fun _ => True :=
  upholds_modify fun world found => allows.follows world world _ (allows.rests world found) (same world)

theorem upholds_note (line : Text) : Upholds rely guarantee (note line) fun _ => True :=
  upholds_modify_same allows fun _ => ⟨rfl, rfl, rfl, rfl⟩

theorem upholds_submit (event : Event) : Upholds rely guarantee (submit event) fun _ => True :=
  upholds_modify_same allows fun _ => ⟨rfl, rfl, rfl, rfl⟩

theorem upholds_count (change : Tally → Tally) : Upholds rely guarantee (count change) fun _ => True :=
  upholds_modify_same allows fun _ => ⟨rfl, rfl, rfl, rfl⟩

theorem upholds_updateProgress (change : Progress → Progress) :
    Upholds rely guarantee (modify (World.updateProgress · addon change)) fun _ => True :=
  upholds_modify_same allows fun _ => ⟨rfl, rfl, rfl, rfl⟩

theorem upholds_message (text : Text) : Upholds rely guarantee (message addon text) fun _ => True :=
  (upholds_note allows text).bind fun _ _ => upholds_submit allows _

theorem upholds_warning (text : Text) (detail : Option Text) :
    Upholds rely guarantee (warning addon text detail) fun _ => True := by
  apply Upholds.bind
  · exact upholds_modify_same allows fun _ => ⟨rfl, rfl, rfl, rfl⟩
  · exact fun _ _ => upholds_submit allows _

theorem upholds_error (concerned : Option Handle) (text : Text) (detail : Option Text) :
    Upholds rely guarantee (error concerned text detail) fun _ => True := by
  apply Upholds.bind
  · exact upholds_modify_same allows fun _ => ⟨rfl, rfl, rfl, rfl⟩
  · exact fun _ _ => upholds_submit allows _

theorem upholds_beginWork (units : Nat) : Upholds rely guarantee (beginWork addon units) fun _ => True :=
  (upholds_updateProgress allows _).bind fun _ _ => (upholds_submit allows _).bind fun _ _ => upholds_submit allows _

theorem upholds_unitDone : Upholds rely guarantee (unitDone addon) fun _ => True := by
  apply Upholds.bind
  · apply @upholds_act _ _ rely guarantee fun _ => True
    · exact fun world found => allows.follows world world _ (allows.rests world found) ⟨rfl, rfl, rfl, rfl⟩
    · exact fun _ _ => trivial
  · exact fun _ _ => upholds_submit allows _

theorem upholds_withStage {stage : Stage} {inner : Run α} {kind : α → Prop} (upholds : Upholds rely guarantee inner kind) :
    Upholds rely guarantee (withStage addon stage inner) kind := by
  apply (upholds_submit allows _).bind
  intro _ _
  apply upholds.bind
  intro answer isKind
  exact (upholds_submit allows _).bind fun _ _ => upholds_pure isKind

/-- A call of a tool gives the guarantees that the changes of the tool give. -/
theorem upholds_callTool {call : FileTree → ToolEffect}
    (guarantees : ∀ world, rely world → guarantee world { world with tree := (call world.tree).tree }) :
    Upholds rely guarantee (callTool call) fun _ => True := by
  apply Upholds.bind
  · apply @upholds_act _ _ rely guarantee fun _ => True
    · intro world found
      exact allows.follows _ _ _ (guarantees world found) (samePlaces_cancelNamed _ _)
    · exact fun _ _ => trivial
  · intro reply _
    cases reply with
    | outcome outcome => exact upholds_pure trivial
    | error e => exact upholds_pure trivial
    | abort => exact upholds_abort

omit allows in
theorem upholds_perform {operation : FileOp α}
    (guarantees : ∀ world, rely world → guarantee world { world with tree := (operation.run world.tree).1 }) :
    Upholds rely guarantee (perform operation) fun result => ∃ world, rely world ∧ (operation.run world.tree).2 = result :=
  @upholds_act _ _ rely guarantee _ (fun world : World => ((operation.run world.tree).2,
    { world with tree := (operation.run world.tree).1 })) guarantees fun world found => ⟨world, found, rfl⟩

end Steps

namespace AddonWork

variable {work : AddonWork} {tempRoot : Path}

/-! ## Parts of stages -/

section Parts

variable (allows : AllowsSamePlaces rely guarantee)

include allows

theorem upholds_reportTool (action : Text) (input output : Path) (record : Tally → Bool → Tally)
    (result : Except ToolError ToolOutcome) :
    Upholds rely guarantee (work.reportTool action input output record result) fun _ => True := by
  have complains : ∀ detail, Upholds rely guarantee (do
      count (record · false)
      error (some work.addon) ("Couldn't ".toList ++ action ++ [' '] ++ input.text) (some detail)
      return false) fun _ => True :=
    fun _ => (upholds_count allows _).bind fun _ _ => (upholds_error allows _ _ _).bind fun _ _ => upholds_pure trivial
  unfold reportTool
  split
  · exact (upholds_count allows _).bind fun _ _ => (upholds_message allows _).bind fun _ _ => upholds_pure trivial
  · exact complains _
  · exact complains _

theorem upholds_reportAborted (workers : List Text) : Upholds rely guarantee (work.reportAborted workers) fun _ => True := by
  induction workers with
  | nil => exact upholds_pure trivial
  | cons worker rest ih => exact (upholds_error allows _ _ _).bind fun _ _ => ih

/-- Workers uphold a guarantee together if each of them does with files that are shared out. -/
theorem upholds_shareOut {what : Text} {files : List Path} {doUnits : List SizedFile → Run Unit}
    (each : ∀ bucket : List SizedFile, (∀ file ∈ bucket, file.path ∈ files) →
      Upholds rely guarantee (doUnits bucket) fun _ => True) :
    Upholds rely guarantee (work.shareOut what files doUnits) fun _ => True := by
  apply upholds_inspect_bind allows.rests
  intro seen _
  apply Upholds.bind
  · unfold WorkerPool.run
    apply Upholds.bind
    · apply upholds_together
      intro thread member
      rcases List.mem_map.1 member with ⟨⟨worker, bucket⟩, started, rfl⟩
      apply (upholds_note allows _).bind
      intro _ _
      apply each bucket
      intro file inBucket
      rcases List.mem_map.1 (WorkerPool.mem_of_started started inBucket) with ⟨path, isFile, rfl⟩
      exact isFile
    · intro ended _
      split
      · exact @upholds_pure _ _ rely guarantee (fun _ => True) _ trivial
      · exact upholds_pure trivial
  · intro report _
    split
    · exact upholds_pure trivial
    · exact (upholds_reportAborted allows _).bind fun _ _ => upholds_pure trivial

theorem upholds_status : Upholds rely guarantee work.status fun _ => True := by
  apply upholds_inspect_bind allows.rests
  intro seen _
  split
  · exact upholds_pure trivial
  · exact upholds_pure trivial

theorem upholds_noteTexts (texts : List Path) : Upholds rely guarantee (noteTexts texts) fun _ => True := by
  induction texts with
  | nil => exact upholds_pure trivial
  | cons text rest ih => exact (upholds_note allows _).bind fun _ _ => ih

/-- Binary configs are found below the directories, each where what is relied on holds. -/
theorem upholds_findConfigs (directories : List Path) :
    Upholds rely guarantee (work.findConfigs directories) fun found => ∀ configs, found = some configs →
      ∀ binary ∈ configs.binaries, ∃ directory ∈ directories, ∃ seen, rely seen ∧
        binary ∈ (configFiles directory seen.tree).binaries := by
  induction directories with
  | nil =>
      apply upholds_pure
      rintro _ ⟨⟩
      exact List.forall_mem_nil _
  | cons directory rest ih =>
      apply upholds_inspect_bind allows.rests
      intro seen _
      split
      · exact upholds_pure nofun
      apply upholds_inspect_bind allows.rests
      intro listing found
      apply ih.bind
      intro others areFound
      cases others with
      | none => exact upholds_pure nofun
      | some others =>
          apply upholds_pure
          rintro _ ⟨⟩ binary member
          rcases List.mem_append.1 member with here | later
          · exact ⟨directory, List.mem_cons_self, listing, found, here⟩
          · rcases areFound others rfl binary later with ⟨other, isOther, rest⟩
            exact ⟨other, List.mem_cons_of_mem _ isOther, rest⟩

theorem upholds_parse (configs : List Path) : Upholds rely guarantee (work.parse configs) fun _ => True := by
  apply upholds_withStage allows
  apply (upholds_beginWork allows _).bind
  intro _ _
  induction configs with
  | nil => exact upholds_pure trivial
  | cons config rest ih =>
      apply upholds_inspect_bind allows.rests
      intro seen _
      split
      · exact upholds_pure trivial
      apply Upholds.bind
      · apply @upholds_act _ _ rely guarantee fun _ => True
        · exact fun world found => allows.follows _ _ _ (allows.rests world found) (samePlaces_cancelNamed _ _)
        · exact fun _ _ => trivial
      intro result _
      have goesOn : Upholds rely guarantee (unitDone work.addon >>= fun _ => work.parseEach rest) fun _ => True :=
        (upholds_unitDone allows).bind fun _ _ => ih
      cases result with
      | ok parsed =>
          exact (upholds_count allows _).bind fun _ _ => (upholds_updateProgress allows _).bind fun _ _ =>
            (upholds_message allows _).bind fun _ _ => goesOn
      | error e => exact (upholds_count allows _).bind fun _ _ => (upholds_error allows _ _ _).bind fun _ _ => goesOn

theorem upholds_readFromCache : Upholds rely guarantee work.readFromCache fun _ => True := by
  apply upholds_inspect_bind allows.rests
  intro seen _
  split
  · exact upholds_pure trivial
  · exact (upholds_note allows _).bind fun _ _ => upholds_pure trivial
  · apply (upholds_note allows _).bind
    intro _ _
    apply (upholds_count allows _).bind
    intro _ _
    apply (upholds_updateProgress allows _).bind
    intro _ _
    apply upholds_inspect_bind allows.rests
    intro listing _
    exact (upholds_parse allows _).bind fun _ _ => upholds_pure trivial

theorem upholds_deleteEach {directories : List Path} (deletes : ∀ directory ∈ directories, ∀ world, rely world →
    guarantee world { world with tree := ((FileOp.removeTree directory).run world.tree).1 }) :
    Upholds rely guarantee (work.deleteEach directories) fun _ => True := by
  induction directories with
  | nil => exact upholds_pure trivial
  | cons directory rest ih =>
      rcases List.forall_mem_cons.1 deletes with ⟨deletesFirst, deletes⟩
      apply (upholds_perform deletesFirst).bind
      intro deleted _
      cases deleted with
      | ok _ => exact (upholds_note allows _).bind fun _ _ => ih deletes
      | error cause =>
          simp only
          split
          · exact (upholds_note allows _).bind fun _ _ => ih deletes
          · exact (upholds_warning allows _ _).bind fun _ _ => ih deletes

/-- The cleanup deletes the extraction directories that it finds noted, and the directory of the addon. -/
theorem upholds_cleanup
    (deletes : ∀ world listing directory, rely world → rely listing → directory ∈ listing.extracted →
      guarantee world { world with tree := ((FileOp.removeTree directory).run world.tree).1 })
    (removes : ∀ world, rely world →
      guarantee world { world with tree := ((FileOp.removeDirectory (tempRoot.join work.addon.name)).run world.tree).1 }) :
    Upholds rely guarantee (work.cleanup tempRoot) fun _ => True := by
  apply upholds_withStage allows
  apply upholds_inspect_bind allows.rests
  intro listing listed
  apply (upholds_deleteEach allows fun directory isListed world found =>
    deletes world listing directory found listed isListed).bind
  intro _ _
  exact (upholds_perform removes).bind fun _ _ => upholds_pure trivial

theorem upholds_finishAddon (result : Except RunFailure StageStatus) :
    Upholds rely guarantee (finishAddon work.addon result) fun _ => True := by
  cases result with
  | error failure => exact upholds_pure trivial
  | ok status =>
      exact (upholds_submit allows _).bind fun _ _ => (upholds_note allows _).bind fun _ _ => upholds_pure trivial

end Parts

/-! ## What may change files -/

/-- Whether a guarantee about files withstands the steps in which the work on an addon changes files or notes
directories. Each of them is about what was listed where what is relied on held. -/
structure Withstands (work : AddonWork) (tempRoot : Path) (rely : World → Prop) (guarantee : World → World → Prop) :
    Prop where
  allows : AllowsSamePlaces rely guarantee
  notes : ∀ world looked seen container files archive, rely world → rely looked →
    archiveContainer? work.addon.directory looked.tree = .ok (some container) → rely seen →
    archives container seen.tree = .ok files → archive ∈ files → guarantee world { world with
      extracted := world.extracted ++ [extractionDirectory (tempRoot.join work.addon.name) archive] }
  extracts : ∀ world looked seen container files archive, rely world → rely looked →
    archiveContainer? work.addon.directory looked.tree = .ok (some container) → rely seen →
    archives container seen.tree = .ok files → archive ∈ files → guarantee world { world with
      tree := (work.environment.tools.extract archive (extractionDirectory (tempRoot.join work.addon.name) archive)
        work.environment.settings.extractTimeout world.tree).tree }
  converts : ∀ world listing seen directory binary, rely world → rely listing → directory ∈ listing.extracted →
    rely seen → binary ∈ (configFiles directory seen.tree).binaries → guarantee world { world with
      tree := (work.environment.tools.convert binary (convertedConfig binary)
        work.environment.settings.convertTimeout world.tree).tree }
  prepares : ∀ world, rely world →
    guarantee world { world with tree := ((work.cache.prepare work.addon.name).run world.tree).1 }
  copies : ∀ world listing seen item, rely world → rely listing → rely seen → item ∈ savePlan listing.extracted seen.tree →
    guarantee world { world with
      tree := ((ReferenceCache.copy (work.cache.entry work.addon.name) item.1 item.2).run world.tree).1 }
  marks : ∀ world, rely world →
    guarantee world { world with tree := ((ReferenceCache.markValid (work.cache.entry work.addon.name)).run world.tree).1 }
  deletes : ∀ world listing directory, rely world → rely listing → directory ∈ listing.extracted →
    guarantee world { world with tree := ((FileOp.removeTree directory).run world.tree).1 }
  removes : ∀ world, rely world →
    guarantee world { world with tree := ((FileOp.removeDirectory (tempRoot.join work.addon.name)).run world.tree).1 }

namespace Withstands

variable (withstands : work.Withstands tempRoot rely guarantee)

include withstands

theorem upholds_extractEach {container : Path} {files : List Path} {looked listing : World} (isLooked : rely looked)
    (isContainer : archiveContainer? work.addon.directory looked.tree = .ok (some container)) (listed : rely listing)
    (areArchives : archives container listing.tree = .ok files) (bucket : List SizedFile)
    (amongFiles : ∀ file ∈ bucket, file.path ∈ files) :
    Upholds rely guarantee (work.extractEach (tempRoot.join work.addon.name) bucket) fun _ => True := by
  induction bucket with
  | nil => exact upholds_pure trivial
  | cons archive rest ih =>
      rcases List.forall_mem_cons.1 amongFiles with ⟨isArchive, amongFiles⟩
      apply upholds_inspect_bind withstands.allows.rests
      intro seen _
      split
      · exact upholds_pure trivial
      apply Upholds.bind
      · apply upholds_modify
        exact fun world found =>
          withstands.notes world looked listing container files _ found isLooked isContainer listed areArchives isArchive
      intro _ _
      apply Upholds.bind
      · apply upholds_callTool withstands.allows
        exact fun world found =>
          withstands.extracts world looked listing container files _ found isLooked isContainer listed areArchives isArchive
      intro result _
      exact (upholds_reportTool withstands.allows _ _ _ _ result).bind fun _ _ =>
        (upholds_unitDone withstands.allows).bind fun _ _ => ih amongFiles

theorem upholds_extract : Upholds rely guarantee (work.extract tempRoot) fun _ => True := by
  apply upholds_withStage withstands.allows
  apply upholds_inspect_bind withstands.allows.rests
  intro looked isLooked
  split
  · exact upholds_pure trivial
  · exact (upholds_warning withstands.allows _ _).bind fun _ _ => upholds_pure trivial
  · rename_i container isContainer
    apply upholds_inspect_bind withstands.allows.rests
    intro listing listed
    split
    · exact upholds_pure trivial
    · rename_i files areArchives
      apply (upholds_note withstands.allows _).bind
      intro _ _
      apply (upholds_beginWork withstands.allows _).bind
      intro _ _
      apply (upholds_shareOut withstands.allows (withstands.upholds_extractEach isLooked isContainer listed
        areArchives)).bind
      intro shared _
      split
      · exact upholds_pure trivial
      · exact (upholds_status withstands.allows).bind fun _ _ => upholds_pure trivial

theorem upholds_convertEach {binaries : List Path} {listing : World} (listed : rely listing)
    (areFound : ∀ binary ∈ binaries, ∃ directory ∈ listing.extracted, ∃ seen, rely seen ∧
      binary ∈ (configFiles directory seen.tree).binaries) (bucket : List SizedFile)
    (amongBinaries : ∀ file ∈ bucket, file.path ∈ binaries) :
    Upholds rely guarantee (work.convertEach bucket) fun _ => True := by
  induction bucket with
  | nil => exact upholds_pure trivial
  | cons binary rest ih =>
      rcases List.forall_mem_cons.1 amongBinaries with ⟨isBinary, amongBinaries⟩
      rcases areFound binary.path isBinary with ⟨directory, isDirectory, looked, found, member⟩
      have goesOn : Upholds rely guarantee (unitDone work.addon >>= fun _ => work.convertEach rest) fun _ => True :=
        (upholds_unitDone withstands.allows).bind fun _ _ => ih amongBinaries
      apply upholds_inspect_bind withstands.allows.rests
      intro seen _
      split
      · exact upholds_pure trivial
      apply Upholds.bind
      · apply upholds_callTool withstands.allows
        exact fun world holds =>
          withstands.converts world listing looked directory binary.path holds listed isDirectory found member
      intro result _
      apply (upholds_reportTool withstands.allows _ _ _ _ result).bind
      intro succeeded _
      cases succeeded with
      | true =>
          apply Upholds.bind
          · exact upholds_modify_same withstands.allows fun _ => ⟨rfl, rfl, rfl, rfl⟩
          · exact fun _ _ => goesOn
      | false => exact goesOn

theorem upholds_convert : Upholds rely guarantee work.convert fun _ => True := by
  apply upholds_withStage withstands.allows
  apply upholds_inspect_bind withstands.allows.rests
  intro listing listed
  apply (upholds_findConfigs withstands.allows listing.extracted).bind
  intro found areFound
  cases found with
  | none => exact upholds_pure trivial
  | some configs =>
      apply (upholds_noteTexts withstands.allows _).bind
      intro _ _
      apply (upholds_beginWork withstands.allows _).bind
      intro _ _
      apply Upholds.bind
      · exact upholds_modify_same withstands.allows fun _ => ⟨rfl, rfl, rfl, rfl⟩
      intro _ _
      apply (upholds_shareOut withstands.allows (withstands.upholds_convertEach listed (areFound configs rfl))).bind
      intro shared _
      split
      · exact upholds_pure trivial
      · apply upholds_inspect_bind withstands.allows.rests
        intro seen _
        exact (upholds_status withstands.allows).bind fun _ _ => upholds_pure trivial

theorem upholds_saveEach {listing seen : World} (listed : rely listing) (isSeen : rely seen)
    (plan : List (Text × Reference.SourceFile)) (planned : ∀ item ∈ plan, item ∈ savePlan listing.extracted seen.tree) :
    Upholds rely guarantee (work.saveEach (work.cache.entry work.addon.name) plan) fun _ => True := by
  induction plan with
  | nil => exact upholds_pure trivial
  | cons item rest ih =>
      rcases List.forall_mem_cons.1 planned with ⟨isItem, planned⟩
      have goesOn : Upholds rely guarantee (unitDone work.addon >>= fun _ =>
          work.saveEach (work.cache.entry work.addon.name) rest) fun _ => True :=
        (upholds_unitDone withstands.allows).bind fun _ _ => ih planned
      apply upholds_inspect_bind withstands.allows.rests
      intro looking _
      split
      · exact upholds_pure trivial
      apply Upholds.bind
      · apply upholds_perform
        exact fun world found => withstands.copies world listing seen item found listed isSeen isItem
      intro copied _
      cases copied with
      | ok target =>
          exact (upholds_count withstands.allows _).bind fun _ _ => (upholds_message withstands.allows _).bind fun _ _ => goesOn
      | error cause =>
          exact (upholds_count withstands.allows _).bind fun _ _ => (upholds_error withstands.allows _ _ _).bind fun _ _ => goesOn

theorem upholds_save : Upholds rely guarantee work.save fun _ => True := by
  apply upholds_withStage withstands.allows
  apply (upholds_perform withstands.prepares).bind
  rintro prepared ⟨world, -, isPrepared⟩
  cases prepared with
  | error cause => exact (upholds_error withstands.allows _ _ _).bind fun _ _ => upholds_pure trivial
  | ok entry =>
      cases entry_of_prepare (show _ = (_, Except.ok entry) from Prod.ext rfl isPrepared)
      apply (upholds_updateProgress withstands.allows _).bind
      intro _ _
      apply upholds_inspect_bind withstands.allows.rests
      intro listing listed
      apply upholds_inspect_bind withstands.allows.rests
      intro seen isSeen
      apply (upholds_beginWork withstands.allows _).bind
      intro _ _
      apply (withstands.upholds_saveEach listed isSeen _ fun _ member => member).bind
      intro status _
      cases status with
      | stopped => exact upholds_pure trivial
      | completed =>
          apply (upholds_perform withstands.marks).bind
          intro marked _
          cases marked with
          | ok _ => exact upholds_pure trivial
          | error cause => exact (upholds_error withstands.allows _ _ _).bind fun _ _ => upholds_pure trivial

theorem upholds_cleanup : Upholds rely guarantee (work.cleanup tempRoot) fun _ => True :=
  AddonWork.upholds_cleanup withstands.allows withstands.deletes withstands.removes

/-- The work on an addon after the extraction of its archives. -/
theorem upholds_goOn (extracted : Except RunFailure StageStatus) :
    Upholds rely guarantee (show Run (Except RunFailure StageStatus) from
      match extracted with
      | .error failure => return .error failure
      | .ok .stopped => return .ok .stopped
      | .ok .completed => do
          match ← work.convert with
          | .error failure => return .error failure
          | .ok (.stopped, _) => return .ok .stopped
          | .ok (.completed, configs) =>
              match ← work.parse configs with
              | .stopped => return .ok .stopped
              | .completed => return .ok (← work.save)) fun _ => True := by
  split
  · exact upholds_pure trivial
  · exact upholds_pure trivial
  · apply withstands.upholds_convert.bind
    intro converted _
    split
    · exact upholds_pure trivial
    · exact upholds_pure trivial
    · apply (upholds_parse withstands.allows _).bind
      intro parsed _
      split
      · exact upholds_pure trivial
      · exact withstands.upholds_save.bind fun _ _ => upholds_pure trivial

theorem upholds_readOrIndex : Upholds rely guarantee (work.readOrIndex tempRoot) fun _ => True := by
  apply (upholds_readFromCache withstands.allows).bind
  intro isRead _
  split
  · exact upholds_pure trivial
  · exact withstands.upholds_extract.bind fun extracted _ => withstands.upholds_goOn extracted

/-- The whole work on an addon upholds a guarantee that its steps withstand, and that holds when no extraction directory
is noted. -/
theorem upholds_indexAddon (empties : ∀ world, rely world → guarantee world { world with extracted := [] }) :
    Upholds rely guarantee (indexAddon work tempRoot) fun _ => True := by
  apply (upholds_submit withstands.allows _).bind
  intro _ _
  apply (upholds_note withstands.allows _).bind
  intro _ _
  apply (upholds_modify empties).bind
  intro _ _
  apply withstands.upholds_readOrIndex.bind
  intro result _
  exact withstands.upholds_cleanup.bind fun _ _ => upholds_finishAddon withstands.allows result

end Withstands

end AddonWork

end AddonIndex.Indexing
