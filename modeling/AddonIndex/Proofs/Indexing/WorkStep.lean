import AddonIndex.Indexing.Run
import AddonIndex.Proofs.Indexing.Obtained

/-!
# What a step of the work can change

The steps of the work on addons are of few kinds. None of them touches the
catalog, and the configs that were read for an addon change only when one more is
read for it. So the turns of other addons, and everything after the last turn,
leave them as they are.
-/

namespace AddonIndex.Indexing

open Activity ClassConfig

variable {α β : Type} {reads : Handle → Prop} {addon other : Handle} {world after : World}

/-- What one step of the work on addons does, if configs are read only for some of them. -/
inductive WorkStep (reads : Handle → Prop) : World → World → Prop
  | look (world : World) : WorkStep reads world world
  | write (world : World) (log : RunLog) : WorkStep reads world { world with log }
  | submit (world : World) (event : Event) : WorkStep reads world (world.submit event)
  | count (world : World) (tally : Tally) : WorkStep reads world { world with tally }
  | files (world : World) (tree : FileTree) : WorkStep reads world { world with tree }
  /-- A tool or the reader is called, which may cancel addons. -/
  | call (world : World) (tree : FileTree) (names : List Text) :
      WorkStep reads world (World.cancelNamed { world with tree } names)
  | extracted (world : World) (extracted : List Path) : WorkStep reads world { world with extracted }
  | converted (world : World) (converted : List Path) : WorkStep reads world { world with converted }
  | tempRoot (world : World) (tempRoot : Option Path) : WorkStep reads world { world with tempRoot }
  | progress (world : World) (addon : Handle) (change : Progress → Progress)
      (keeps : ∀ progress, (change progress).configs = progress.configs) :
      WorkStep reads world (world.updateProgress addon change)
  | read (world : World) (addon : Handle) (isRead : reads addon) (config : ParsedConfig) :
      WorkStep reads world (world.updateProgress addon (·.addConfig config))

/-! ## What stays as it is -/

/-- Whether the catalog is the same in two worlds. -/
def KeepsCatalog (before after : World) : Prop := after.catalog = before.catalog

theorem catalog_cancelNamed (world : World) (names : List Text) :
    (world.cancelNamed names).catalog = world.catalog :=
  @holds_cancelNamed world (fun after => after.catalog = world.catalog) names rfl fun _ _ same => same

theorem WorkStep.keepsCatalog (step : WorkStep reads world after) : KeepsCatalog world after := by
  cases step with
  | call _ names => exact catalog_cancelNamed _ names
  | _ => rfl

/-- A change of progress that keeps the configs of whomever it concerns keeps those of all. -/
theorem configsOf_updateProgress {change : Progress → Progress}
    (keeps : ∀ progress, (change progress).configs = progress.configs) :
    (world.updateProgress addon change).configsOf other = world.configsOf other := by
  unfold World.configsOf World.scene World.updateProgress
  rw [List.getElem?_modify]
  cases world.progress[other.index]? with
  | none => rfl
  | some progress =>
      by_cases same : addon.index = other.index
      · simp [same, keeps]
      · simp [same]

theorem configsOf_updateProgress_of_ne (apart : addon.index ≠ other.index) (change : Progress → Progress) :
    (world.updateProgress addon change).configsOf other = world.configsOf other := by
  unfold World.configsOf World.scene World.updateProgress
  rw [List.getElem?_modify]
  simp [apart]

theorem configsOf_cancelNamed (world : World) (names : List Text) :
    (world.cancelNamed names).configsOf other = world.configsOf other := by
  refine @holds_cancelNamed world (fun after => after.configsOf other = world.configsOf other) names rfl
    fun _ _ same => Eq.trans ?_ same
  exact configsOf_updateProgress fun _ => rfl

/-- A step leaves the configs of every addon for which nothing is read. -/
theorem WorkStep.configsOf (step : WorkStep reads world after)
    (apart : ∀ addon, reads addon → addon.index ≠ other.index) :
    after.configsOf other = world.configsOf other := by
  cases step with
  | call tree names => exact configsOf_cancelNamed _ names
  | progress addon change keeps => exact configsOf_updateProgress keeps
  | read addon isRead config => exact configsOf_updateProgress_of_ne (apart addon isRead) _
  | _ => rfl

/-- A step does not close the channel. -/
theorem WorkStep.live (step : WorkStep reads world after) (live : world.channel.Live) : after.channel.Live := by
  cases step with
  | submit event => exact live.submit event
  | call tree names =>
      rw [channel_cancelNamed]
      exact live
  | _ => exact live

theorem keepsCatalog_of_interference (interferes : Interference world after) : KeepsCatalog world after := by
  cases interferes <;> rfl

theorem keepsCatalog_of_gap (gap : Relation.ReflTransGen Interference world after) :
    KeepsCatalog world after := by
  induction gap with
  | refl => rfl
  | tail _ last ih => exact (keepsCatalog_of_interference last).trans ih

theorem configsOf_of_gap (gap : Relation.ReflTransGen Interference world after) :
    after.configsOf other = world.configsOf other := by
  induction gap with
  | refl => rfl
  | tail _ last ih =>
      refine Eq.trans ?_ ih
      cases last with
      | cancel addon => exact configsOf_updateProgress fun _ => rfl
      | deliver => rfl

variable {moves : List (Move World)} {result : Option α} {activity : Run α}

/-- Activities that do not publish leave the catalog. -/
theorem catalog_of_executes (keeps : Always KeepsCatalog activity)
    (execution : Executes Interference activity world moves after result) :
    after.catalog = world.catalog := by
  change KeepsCatalog world after
  refine keeps.relates ?_ ?_ ?_ execution
  · exact fun _ => rfl
  · exact fun _ _ _ first second => second.trans first
  · exact fun _ _ => keepsCatalog_of_interference

/-- Whether every step of an activity is a step of the work on addons. -/
abbrev Works (reads : Handle → Prop) (activity : Run α) : Prop := Always (WorkStep reads) activity

theorem Works.keepsCatalog (works : Works (fun _ => True) activity) : Always KeepsCatalog activity :=
  works.mono fun _ _ => WorkStep.keepsCatalog

/-- The work leaves the configs of every addon for which nothing is read. -/
theorem Works.configsOf (works : Works reads activity)
    (apart : ∀ addon, reads addon → addon.index ≠ other.index)
    (execution : Executes Interference activity world moves after result) :
    after.configsOf other = world.configsOf other := by
  have keeps : Always (fun before after => World.configsOf other after = World.configsOf other before) activity :=
    works.mono fun _ _ step => step.configsOf apart
  refine keeps.relates ?_ ?_ ?_ execution
  · exact fun _ => rfl
  · exact fun _ _ _ first second => second.trans first
  · exact fun _ _ last => configsOf_of_gap (.single last)

theorem Works.live (works : Works (fun _ => True) activity)
    (execution : Executes Interference activity world moves after result) (live : world.channel.Live) :
    after.channel.Live := by
  have keeps : Always (fun before after : World => before.channel.Live → after.channel.Live) activity :=
    works.mono fun _ _ => WorkStep.live
  refine keeps.relates ?_ ?_ ?_ execution live
  · exact fun _ live => live
  · exact fun _ _ _ first second live => second (first live)
  · exact fun _ _ last => live_of_interference (.single last)

/-! ## Single steps and reports -/

theorem works_inspect (look : World → α) : Works reads (inspect look) :=
  always_inspect .look

theorem works_note (line : Text) : Works reads (note line) :=
  always_modify fun world => .write world _

theorem works_submit (event : Event) : Works reads (submit event) :=
  always_modify fun world => .submit world event

theorem works_count (change : Tally → Tally) : Works reads (count change) :=
  always_modify fun world => .count world _

theorem works_perform (operation : FileOp α) : Works reads (perform operation) :=
  always_act fun world => .files world _

theorem works_updateProgress {change : Progress → Progress}
    (keeps : ∀ progress, (change progress).configs = progress.configs) :
    Works reads (modify (World.updateProgress · addon change)) :=
  always_modify fun world => .progress world addon change keeps

theorem works_message (text : Text) : Works reads (message addon text) :=
  (works_note text).bind fun _ => works_submit _

theorem works_warning (text : Text) (detail : Option Text) : Works reads (warning addon text detail) := by
  refine Always.bind (always_modify fun world => ?_) fun _ => works_submit _
  exact .write world _

theorem works_error (about : Option Handle) (text : Text) (detail : Option Text) :
    Works reads (error about text detail) := by
  refine Always.bind (always_modify fun world => ?_) fun _ => works_submit _
  exact .write world _

theorem works_beginWork (units : Nat) : Works reads (beginWork addon units) := by
  refine (works_updateProgress ?_).bind fun _ => (works_submit _).bind fun _ => works_submit _
  exact fun _ => rfl

theorem works_unitDone : Works reads (unitDone addon) := by
  refine Always.bind (always_act fun world => ?_) fun _ => works_submit _
  exact .progress world addon Progress.advance fun _ => rfl

theorem works_callTool (call : FileTree → ToolEffect) : Works reads (callTool call) := by
  refine Always.bind (always_act fun world => ?_) fun reply => ?_
  · exact .call world _ _
  · cases reply <;> trivial

theorem works_withStage {stage : Stage} {inner : Run α} (works : Works reads inner) :
    Works reads (withStage addon stage inner) :=
  (works_submit _).bind fun _ => works.bind fun _ => (works_submit _).bind fun _ => always_pure _

namespace AddonWork

variable {work : AddonWork}

/-! ## Workers -/

theorem works_reportTool (action : Text) (input output : Path) (record : Tally → Bool → Tally)
    (result : Except ToolError ToolOutcome) :
    Works reads (work.reportTool action input output record result) := by
  unfold reportTool
  split
  · exact (works_count _).bind fun _ => (works_message _).bind fun _ => always_pure _
  · exact (works_count _).bind fun _ => (works_error _ _ _).bind fun _ => always_pure _
  · exact (works_count _).bind fun _ => (works_error _ _ _).bind fun _ => always_pure _

theorem works_extractEach (destination : Path) (files : List SizedFile) :
    Works reads (work.extractEach destination files) := by
  induction files with
  | nil => trivial
  | cons archive rest ih =>
      unfold extractEach
      refine (works_inspect _).bind fun cancelled => ?_
      split
      · trivial
      · refine Always.bind (always_modify fun world => ?_) fun _ => (works_callTool _).bind fun result =>
          (works_reportTool _ _ _ _ result).bind fun _ => works_unitDone.bind fun _ => ih
        exact .extracted world _

theorem works_convertEach (files : List SizedFile) : Works reads (work.convertEach files) := by
  induction files with
  | nil => trivial
  | cons binary rest ih =>
      have next : Works reads (do
          unitDone work.addon
          work.convertEach rest) := works_unitDone.bind fun _ => ih
      unfold convertEach
      refine (works_inspect _).bind fun cancelled => ?_
      split
      · trivial
      · refine (works_callTool _).bind fun result => (works_reportTool _ _ _ _ result).bind fun succeeded => ?_
        cases succeeded with
        | true => exact Always.bind (always_modify fun world => .converted world _) fun _ => next
        | false => exact next

theorem works_reportAborted (workers : List Text) : Works reads (work.reportAborted workers) := by
  induction workers with
  | nil => trivial
  | cons worker rest ih => exact (works_error _ _ _).bind fun _ => ih

theorem works_shareOut {what : Text} {files : List Path} {doUnits : List SizedFile → Run Unit}
    (each : ∀ bucket, Works reads (doUnits bucket)) : Works reads (work.shareOut what files doUnits) := by
  refine (works_inspect _).bind fun sized => Always.bind ?_ fun report => ?_
  · unfold WorkerPool.run
    refine (always_together fun thread member => ?_).bind fun ended => ?_
    · obtain ⟨⟨worker, bucket⟩, -, rfl⟩ := List.mem_map.1 member
      exact (works_note _).bind fun _ => each bucket
    · split <;> trivial
  · split
    · trivial
    · exact (works_reportAborted _).bind fun _ => always_pure _

/-! ## The work of each stage -/

theorem works_status : Works reads work.status := by
  refine (works_inspect _).bind fun cancelled => ?_
  split <;> trivial

theorem works_setReference (entry : Path) : Works reads (work.setReference entry) := by
  refine works_updateProgress ?_
  exact fun _ => rfl

theorem works_noteTexts (texts : List Path) : Works reads (noteTexts texts) := by
  induction texts with
  | nil => trivial
  | cons text rest ih => exact (works_note _).bind fun _ => ih

theorem works_findConfigs (directories : List Path) : Works reads (work.findConfigs directories) := by
  induction directories with
  | nil => trivial
  | cons directory rest ih =>
      unfold findConfigs
      refine (works_inspect _).bind fun cancelled => ?_
      split
      · trivial
      · refine (works_inspect _).bind fun found => ih.bind fun others => ?_
        split <;> trivial

theorem works_saveEach (entry : Path) (plan : List (Text × Reference.SourceFile)) :
    Works reads (work.saveEach entry plan) := by
  induction plan with
  | nil => trivial
  | cons item rest ih =>
      obtain ⟨name, file⟩ := item
      unfold saveEach
      refine (works_inspect _).bind fun cancelled => ?_
      split
      · trivial
      · refine (works_perform _).bind fun result => ?_
        split
        · exact (works_count _).bind fun _ => (works_message _).bind fun _ => works_unitDone.bind fun _ => ih
        · exact (works_count _).bind fun _ => (works_error _ _ _).bind fun _ => works_unitDone.bind fun _ => ih

theorem works_deleteEach (directories : List Path) : Works reads (work.deleteEach directories) := by
  induction directories with
  | nil => trivial
  | cons directory rest ih =>
      unfold deleteEach
      refine (works_perform _).bind fun result => ?_
      split
      · split
        · exact (works_note _).bind fun _ => ih
        · exact (works_warning _ _).bind fun _ => ih
      · exact (works_note _).bind fun _ => ih

theorem works_extract (tempRoot : Path) : Works reads (work.extract tempRoot) := by
  refine works_withStage ((works_inspect _).bind fun container => ?_)
  split
  · trivial
  · exact (works_warning _ _).bind fun _ => always_pure _
  · refine (works_inspect _).bind fun files => ?_
    split
    · trivial
    · refine (works_note _).bind fun _ => (works_beginWork _).bind fun _ =>
        (works_shareOut fun bucket => works_extractEach _ bucket).bind fun shared => ?_
      split
      · trivial
      · exact works_status.bind fun _ => always_pure _

theorem works_convert : Works reads work.convert := by
  refine works_withStage ((works_inspect _).bind fun directories =>
    (works_findConfigs directories).bind fun found => ?_)
  split
  · trivial
  · refine (works_noteTexts _).bind fun _ => (works_beginWork _).bind fun _ =>
      Always.bind (always_modify fun world => .converted world _) fun _ =>
        (works_shareOut fun bucket => works_convertEach bucket).bind fun shared => ?_
    split
    · trivial
    · exact (works_inspect _).bind fun _ => works_status.bind fun _ => always_pure _

theorem works_save : Works reads work.save := by
  refine works_withStage ((works_perform _).bind fun prepared => ?_)
  split
  · exact (works_error _ _ _).bind fun _ => always_pure _
  · refine (works_setReference _).bind fun _ => (works_inspect _).bind fun directories =>
      (works_inspect _).bind fun plan => (works_beginWork _).bind fun _ =>
        (works_saveEach _ plan).bind fun saved => ?_
    split
    · trivial
    · refine (works_perform _).bind fun marked => ?_
      split
      · trivial
      · exact (works_error _ _ _).bind fun _ => always_pure _

theorem works_cleanup (tempRoot : Path) : Works reads (work.cleanup tempRoot) :=
  works_withStage ((works_inspect _).bind fun directories =>
    (works_deleteEach directories).bind fun _ => (works_perform _).bind fun _ => always_pure _)

/-! ## Work that reads configs -/

section Reading

variable (isRead : reads work.addon)

include isRead

theorem works_parse (configs : List Path) : Works reads (work.parse configs) := by
  refine works_withStage ((works_beginWork _).bind fun _ => ?_)
  induction configs with
  | nil => trivial
  | cons config rest ih =>
      unfold parseEach
      refine (works_inspect _).bind fun cancelled => ?_
      split
      · trivial
      · refine Always.bind (always_act fun world => ?_) fun result => ?_
        · exact .call world world.tree _
        · split
          · rename_i parsed
            refine (works_count _).bind fun _ => Always.bind (always_modify fun world => ?_) fun _ =>
              (works_message _).bind fun _ => works_unitDone.bind fun _ => ih
            exact .read world work.addon isRead parsed
          · exact (works_count _).bind fun _ => (works_error _ _ _).bind fun _ => works_unitDone.bind fun _ => ih

theorem works_readFromCache : Works reads work.readFromCache := by
  refine (works_inspect _).bind fun state => ?_
  split
  · trivial
  · exact (works_note _).bind fun _ => always_pure _
  · exact (works_note _).bind fun _ => (works_count _).bind fun _ => (works_setReference _).bind fun _ =>
      (works_inspect _).bind fun configs => (works_parse isRead configs).bind fun _ => always_pure _

theorem works_index (tempRoot : Path) : Works reads (work.index tempRoot) := by
  refine (works_extract _).bind fun extracted => ?_
  split
  · trivial
  · trivial
  · refine works_convert.bind fun converted => ?_
    split
    · trivial
    · trivial
    · refine (works_parse isRead _).bind fun parsed => ?_
      split
      · trivial
      · exact works_save.bind fun _ => always_pure _

theorem works_indexAddon (tempRoot : Path) : Works reads (indexAddon work tempRoot) := by
  refine (works_submit _).bind fun _ => (works_note _).bind fun _ =>
    Always.bind (always_modify fun world => .extracted world _) fun _ =>
      ((works_readFromCache isRead).bind fun found => ?_).bind fun result =>
        (works_cleanup tempRoot).bind fun _ => ?_
  · split
    · trivial
    · exact works_index isRead tempRoot
  · cases result with
    | error failure => trivial
    | ok status => exact (works_submit _).bind fun _ => (works_note _).bind fun _ => always_pure _

end Reading

end AddonWork

/-! ## The addons of a run -/

theorem works_indexEach {environment : Environment} {cache : ReferenceCache} {tempRoot : Path}
    {addons : List Handle} (areRead : ∀ addon ∈ addons, reads addon) :
    Works reads (indexEach environment cache tempRoot addons) := by
  induction addons with
  | nil => trivial
  | cons addon rest ih =>
      obtain ⟨isRead, areRead⟩ := List.forall_mem_cons.1 areRead
      refine (works_inspect _).bind fun cancelled => ?_
      split
      · exact ih areRead
      · refine (AddonWork.works_indexAddon isRead tempRoot).bind fun indexed => ?_
        split
        · trivial
        · exact ih areRead

theorem works_deleteTempRoot (tempRoot : Path) : Works reads (deleteTempRoot tempRoot) := by
  refine (works_perform _).bind fun deleted => ?_
  split
  · exact works_note _
  · trivial

theorem works_collect (addons : List Handle) : Works reads (collect addons) := by
  induction addons with
  | nil => trivial
  | cons addon rest ih =>
      unfold collect
      refine (works_inspect _).bind fun cancelled => ?_
      split
      · exact (works_count _).bind fun _ => (works_note _).bind fun _ => ih
      · exact (works_count _).bind fun _ => (works_note _).bind fun _ =>
          (works_inspect _).bind fun _ => ih.bind fun _ => always_pure _

theorem works_createTempRoot (root : Path) : Works reads (createTempRoot root) := by
  refine (works_inspect _).bind fun path => (works_perform _).bind fun made => ?_
  split <;> trivial

theorem works_removeTempRoot : Works reads removeTempRoot := by
  refine (works_inspect _).bind fun tempRoot => ?_
  split
  · trivial
  · refine (works_inspect _).bind fun there => ?_
    split
    · refine (works_perform _).bind fun deleted => ?_
      cases deleted with
      | ok _ => trivial
      | error cause => exact works_error _ _ _
    · trivial

theorem works_noteAll (lines : List Text) : Works reads (noteAll lines) := by
  induction lines with
  | nil => trivial
  | cons line rest ih => exact (works_note line).bind fun _ => ih

theorem works_discover (selection : Selection) (roots : List Text) : Works reads (discover selection roots) := by
  induction roots with
  | nil => trivial
  | cons root rest ih =>
      refine (works_inspect _).bind fun children => ?_
      split
      · exact ih
      · exact (works_note _).bind fun _ => (works_noteAll _).bind fun _ => (works_noteAll _).bind fun _ =>
          ih.bind fun _ => always_pure _

theorem works_ensureReferenceRoot (root : Path) : Works reads (ensureReferenceRoot root) := by
  refine (works_inspect _).bind fun there => ?_
  split
  · refine (works_inspect _).bind fun isDirectory => ?_
    split <;> trivial
  · refine (works_perform _).bind fun made => ?_
    split <;> trivial

end AddonIndex.Indexing
