import AddonIndex.Proofs.Indexing.Protocol
import AddonIndex.Proofs.Indexing.Succession
import AddonIndex.Proofs.Indexing.Thorough

/-!
# What a run publishes

When the turns of all addons are over each addon is looked at once more, in the
order in which the addons were discovered. Those that are not found cancelled are
published. A cancellation is never taken back, so nothing that was done for them
was cut short, whenever others or they themselves are cancelled.
-/

namespace AddonIndex.Indexing

open Activity

variable {environment : Environment} {selection : Selection} {cache : ReferenceCache} {tempRoot : Path}
  {addon : Handle} {addons : List Handle} {world after : World} {moves : List (Move World)}
  {published : List Addon}

/-! ## The last look at each addon -/

/-- A look at an addon: the addon, and the world that the look finds. -/
structure Look where
  addon : Handle
  world : World

/-- Whether a look does not find the addon cancelled. -/
def Look.IsUncancelled (look : Look) : Prop := Uncancelled look.addon look.world

instance (look : Look) : Decidable look.IsUncancelled :=
  inferInstanceAs (Decidable (Uncancelled look.addon look.world))

/-- Leave an addon out of the list. -/
def leaveOut (addon : Handle) : Run Unit := do
  count Tally.countCancelled
  note ("Addon cancelled: ".toList ++ addon.name)

/-- Take an addon up into the list. The answer is its progress. -/
def takeUp (addon : Handle) : Run Progress := do
  count Tally.countIndexed
  note ("Addon finished: ".toList ++ addon.name)
  Activity.inspect (·.progressOf addon)

/-- Executions of the loop that collects the addons to publish: it looks at each addon in turn and takes
up those that it does not find cancelled. -/
inductive Collects :
    List Handle → World → List (Move World) → World → List Look → List Addon → Prop
  | done {world after : World} (gap : Relation.ReflTransGen Interference world after) :
      Collects [] world [] after [] []
  | leftOut {addon : Handle} {rest : List Handle} {world seen middle after : World}
      {during later : List (Move World)} {looks : List Look} {published : List Addon}
      (gap : Relation.ReflTransGen Interference world seen) (cancelled : ¬ Uncancelled addon seen)
      (leaves : Executes Interference (leaveOut addon) seen during middle (some ()))
      (others : Collects rest middle later after looks published) :
      Collects (addon :: rest) world ((seen, seen) :: (during ++ later)) after (⟨addon, seen⟩ :: looks)
        published
  | taken {addon : Handle} {rest : List Handle} {world seen middle after : World}
      {during later : List (Move World)} {looks : List Look} {progress : Progress} {published : List Addon}
      (gap : Relation.ReflTransGen Interference world seen) (uncancelled : Uncancelled addon seen)
      (takes : Executes Interference (takeUp addon) seen during middle (some progress))
      (others : Collects rest middle later after looks published) :
      Collects (addon :: rest) world ((seen, seen) :: (during ++ later)) after (⟨addon, seen⟩ :: looks)
        (Addon.ofHandle addon progress :: published)

theorem collect_cons (addon : Handle) (rest : List Handle) :
    collect (addon :: rest) = isCancelled addon >>= fun cancelled =>
      if cancelled then leaveOut addon >>= fun _ => collect rest
      else takeUp addon >>= fun progress => collect rest >>= fun others =>
        pure (Addon.ofHandle addon progress :: others) := by
  refine congrArg (Activity.bind _) (funext fun cancelled => ?_)
  cases cancelled <;> rfl

theorem exists_collects
    (execution : Executes Interference (collect addons) world moves after (some published)) :
    ∃ looks, Collects addons world moves after looks published := by
  induction addons generalizing world moves published with
  | nil =>
      obtain ⟨rfl, same, gap⟩ := executes_pure_iff.1 execution
      cases same
      exact ⟨[], .done gap⟩
  | cons addon rest ih =>
      rw [collect_cons] at execution
      obtain ⟨seen, _, rfl, gap, execution⟩ := executes_inspect_bind_iff.1 execution
      split at execution
      · rename_i cancelled
        obtain ⟨during, later, middle, ⟨⟩, rfl, leaves, execution⟩ := execution.bind_some
        obtain ⟨looks, collects⟩ := ih execution
        refine ⟨_, .leftOut gap (fun uncancelled => ?_) leaves collects⟩
        rw [uncancelled] at cancelled
        cases cancelled
      · rename_i uncancelled
        obtain ⟨during, _, middle, progress, rfl, takes, execution⟩ := execution.bind_some
        obtain ⟨later, _, ended, others, rfl, collecting, execution⟩ := execution.bind_some
        obtain ⟨rfl, same, last⟩ := executes_pure_iff.1 execution
        cases same
        obtain ⟨looks, collects⟩ := ih (executes_gap_right collecting last)
        rw [List.append_nil]
        exact ⟨_, .taken gap (Bool.eq_false_iff.2 uncancelled) takes collects⟩

theorem Collects.looks_addon {looks : List Look} (collects : Collects addons world moves after looks published) :
    looks.map Look.addon = addons := by
  induction collects with
  | done => rfl
  | leftOut _ _ _ _ ih => rw [List.map_cons, ih]
  | taken _ _ _ _ ih => rw [List.map_cons, ih]

/-! ## Worlds that follow -/

theorem follows_of_executes {α : Type} {activity : Run α} {result : Option α} (follow : Always Follows activity)
    (execution : Executes Interference activity world moves after result) : Follows world after :=
  follows_of_chain execution.2 (follow.of_traces execution.1)

theorem works_leaveOut (reads : Handle → Prop) : Works reads (leaveOut addon) :=
  (works_count _).bind fun _ => works_note _

theorem follow_leaveOut : Always Follows (leaveOut addon) :=
  (always_count _).bind fun _ => always_note _

theorem works_takeUp (reads : Handle → Prop) : Works reads (takeUp addon) :=
  (works_count _).bind fun _ => (works_note _).bind fun _ => works_inspect _

theorem follow_takeUp : Always Follows (takeUp addon) :=
  (always_count _).bind fun _ => (always_note _).bind fun _ => always_inspect_world _

/-- Where nothing is read the configs of all addons stay as they are. -/
theorem configsOf_of_executes {α : Type} {activity : Run α} {result : Option α}
    (works : Works (fun _ => False) activity)
    (execution : Executes Interference activity world moves after result) :
    after.configsOf addon = world.configsOf addon :=
  works.configsOf (fun _ => False.elim) execution

theorem Quiet.follow {α : Type} {activity : Run α} (quiet : Quiet activity) : Always Follows activity :=
  quiet.steps.mono fun _ _ proceeds => proceeds.mono fun _ _ => trivial

/-- An addon is taken up with the configs that were read for it. -/
theorem configs_of_takeUp {progress : Progress} {configs : List ClassConfig.ParsedConfig}
    (execution : Executes Interference (takeUp addon) world moves after (some progress))
    (enrolled : world.configsOf addon = some configs) : progress.configs = configs := by
  obtain ⟨counting, _, -, gap, execution⟩ := executes_modify_bind_iff.1 execution
  rw [← configsOf_of_gap gap] at enrolled
  obtain ⟨noting, _, -, gap, execution⟩ := executes_modify_bind_iff.1 execution
  rw [show counting.configsOf addon = _ from (configsOf_of_gap gap).symm] at enrolled
  obtain ⟨seen, -, same, gap, -⟩ := executes_inspect_iff.1 execution
  rw [show noting.configsOf addon = _ from (configsOf_of_gap gap).symm] at enrolled
  cases same
  exact configs_progressOf enrolled

/-- Whether an addon was uncancelled in a world, and is published with the configs that were read for it
there. -/
def IsTakenFrom (world : World) (look : Look) (published : Addon) : Prop :=
  Uncancelled look.addon world ∧ ∃ progress, published = Addon.ofHandle look.addon progress ∧
    ∀ configs, world.configsOf look.addon = some configs → progress.configs = configs

theorem IsTakenFrom.of_follows {middle : World} {look : Look} {published : Addon}
    (isTaken : IsTakenFrom middle look published) (follows : Follows world middle)
    (configsOf : middle.configsOf look.addon = world.configsOf look.addon) :
    IsTakenFrom world look published := by
  obtain ⟨uncancelled, progress, isAddon, configs⟩ := isTaken
  rw [configsOf] at configs
  exact ⟨uncancelled.of_follows follows, progress, isAddon, configs⟩

/-- The addons that are published are, in order, those that a look does not find cancelled. -/
theorem Collects.forall₂ {looks : List Look} (collects : Collects addons world moves after looks published) :
    List.Forall₂ (IsTakenFrom world) (looks.filter fun look => look.IsUncancelled) published := by
  induction collects with
  | done => exact .nil
  | @leftOut addon rest world seen middle _ _ _ _ _ gap cancelled leaves others ih =>
      have cancelledLook : ¬ Look.IsUncancelled ⟨addon, seen⟩ := cancelled
      rw [List.filter_cons_of_neg (by simpa using cancelledLook)]
      refine ih.imp fun look addon isTaken => isTaken.of_follows ?_ ?_
      · exact (follows_of_gap gap).trans (follows_of_executes follow_leaveOut leaves)
      · exact (configsOf_of_executes (works_leaveOut _) leaves).trans (configsOf_of_gap gap)
  | @taken addon rest world seen middle _ _ _ _ progress _ gap uncancelled takes others ih =>
      have uncancelledLook : Look.IsUncancelled ⟨addon, seen⟩ := uncancelled
      rw [List.filter_cons_of_pos (by simpa using uncancelledLook)]
      have atLook : IsTakenFrom seen ⟨addon, seen⟩ (Addon.ofHandle addon progress) :=
        ⟨uncancelled, progress, rfl, fun configs enrolled => configs_of_takeUp takes enrolled⟩
      refine .cons (atLook.of_follows (follows_of_gap gap) (configsOf_of_gap gap)) ?_
      refine ih.imp fun look addon isTaken => isTaken.of_follows ?_ ?_
      · exact (follows_of_gap gap).trans (follows_of_executes follow_takeUp takes)
      · exact (configsOf_of_executes (works_takeUp _) takes).trans (configsOf_of_gap gap)

/-- Whatever is published is one of the addons, taken up by a look at it. -/
theorem Collects.exists_look {looks : List Look} (collects : Collects addons world moves after looks published)
    {item : Addon} (isPublished : item ∈ published) : ∃ look, look.addon ∈ addons ∧ IsTakenFrom world look item := by
  obtain ⟨i, inPublished, rfl⟩ := List.getElem_of_mem isPublished
  have each := collects.forall₂
  have inLooks := each.length_eq ▸ inPublished
  refine ⟨_, ?_, each.get inLooks inPublished⟩
  rw [← collects.looks_addon]
  exact List.mem_map_of_mem (List.mem_of_mem_filter (List.get_mem _ _))

/-! ## The turn of an addon -/

theorem speaksOf_finishAddon (result : Except RunFailure StageStatus) :
    SpeaksOf addon (finishAddon addon result) := by
  cases result with
  | error failure => trivial
  | ok status =>
      refine (always_submit ?_).bind fun _ => (always_note _).bind fun _ => always_pure _
      exact rfl

theorem works_finishAddon (reads : Handle → Prop) (result : Except RunFailure StageStatus) :
    Works reads (finishAddon addon result) := by
  cases result with
  | error failure => trivial
  | ok status => exact (works_submit _).bind fun _ => (works_note _).bind fun _ => always_pure _

theorem speaksOf_indexAddon (work : AddonWork) (tempRoot : Path) :
    SpeaksOf work.addon (indexAddon work tempRoot) := by
  refine (always_submit ?_).bind fun _ => (always_note _).bind fun _ =>
    (always_modify_quiet ?_ ?_).bind fun _ => (work.speaksOf_readOrIndex tempRoot).bind fun result =>
      (work.stages_cleanup tempRoot).speaksOf.bind fun _ => speaksOf_finishAddon result
  · exact rfl
  · exact fun _ => rfl
  · exact fun _ => rfl

/-- The work on addons reports only what is about one of them. -/
theorem proceeds_indexEach :
    Always (Proceeds fun event => event.addon?.isSome) (indexEach environment cache tempRoot addons) := by
  induction addons with
  | nil => trivial
  | cons addon rest ih =>
      refine (always_inspect_world _).bind fun cancelled => ?_
      split
      · exact ih
      · refine ((speaksOf_indexAddon _ tempRoot).proceeds ?_).bind fun indexed => ?_
        · exact fun _ about => Option.isSome_of_eq_some about
        · split
          · trivial
          · exact ih

theorem follow_indexEach : Always Follows (indexEach environment cache tempRoot addons) :=
  proceeds_indexEach.mono fun _ _ proceeds => proceeds.mono fun _ _ => trivial

/-- Whether the moves of the work on an addon are among others, and all that was read for it is what could
be read of the configs that were listed for it, in path order. -/
def WorkedOn (work : AddonWork) (tempRoot : Path) (moves : List (Move World))
    (parsed : List ClassConfig.ParsedConfig) : Prop :=
  ∃ before during later begun ended configs tree, moves = before ++ (during ++ later) ∧
    Thorough work tempRoot begun during ended configs tree ∧
    (configs.Pairwise fun first second => first.le second = true) ∧
    parsed = parsedConfigs work.environment.reader tree configs

theorem WorkedOn.append_left {work : AddonWork} {parsed : List ClassConfig.ParsedConfig}
    (workedOn : WorkedOn work tempRoot moves parsed) (earlier : List (Move World)) :
    WorkedOn work tempRoot (earlier ++ moves) parsed := by
  obtain ⟨before, during, later, begun, ended, configs, tree, rfl, thorough, rest⟩ := workedOn
  exact ⟨earlier ++ before, during, later, begun, ended, configs, tree, by simp, thorough, rest⟩

theorem WorkedOn.append_right {work : AddonWork} {parsed : List ClassConfig.ParsedConfig}
    (workedOn : WorkedOn work tempRoot moves parsed) (more : List (Move World)) :
    WorkedOn work tempRoot (moves ++ more) parsed := by
  obtain ⟨before, during, later, begun, ended, configs, tree, rfl, thorough, rest⟩ := workedOn
  exact ⟨before, during, later ++ more, begun, ended, configs, tree, by simp, thorough, rest⟩

/-- Nothing is read yet for addons that are enrolled. -/
theorem configsOf_enrolled {directories : List Path} (member : addon ∈ handlesOf directories)
    (begins : world.progress = directories.map fun _ => {}) : world.configsOf addon = some [] := by
  obtain ⟨i, inside, rfl⟩ := List.mem_mapIdx.1 member
  unfold World.configsOf World.scene
  rw [begins]
  simp [inside]

theorem works_indexAll (root : Path) (addons : List Handle) :
    Works (fun _ => True) (indexAll environment root addons) := by
  refine (works_createTempRoot root).bind fun created => ?_
  split
  · trivial
  · rename_i tempRoot
    refine Always.bind (always_modify fun world => .tempRoot world (some tempRoot)) fun _ =>
      (works_note _).bind fun _ => (works_indexEach fun _ _ => trivial).bind fun indexed => ?_
    cases indexed with
    | error failure => trivial
    | ok _ => exact (works_deleteTempRoot tempRoot).bind fun _ => (works_collect addons).bind fun _ => always_pure _

/-- Nothing is published before the outcome of a run is known. -/
theorem keepsCatalog_attempt (logPath : Option Path) :
    Always KeepsCatalog (attempt environment selection logPath) := by
  have opens : Always KeepsCatalog (openLog logPath) := by
    refine (works_perform _).keepsCatalog.bind fun opened => ?_
    split
    · exact always_modify fun _ => rfl
    · trivial
  refine opens.bind fun _ => (works_note _).keepsCatalog.bind fun _ =>
    (works_ensureReferenceRoot _).keepsCatalog.bind fun ensured => ?_
  split
  · trivial
  · refine (works_callTool _).keepsCatalog.bind fun checked => ?_
    split
    · trivial
    · refine (works_discover _ _).keepsCatalog.bind fun directories =>
        Always.bind (always_act fun _ => rfl) fun addons =>
          (works_submit _).keepsCatalog.bind fun _ => (works_indexAll _ addons).keepsCatalog

/-- The end of a run after its outcome is settled. -/
def wrapUp : Run Unit := do
  submit .finished
  removeTempRoot
  note "[EXIT LOAD ADDONS]"
  Activity.modify World.close

theorem run_eq (logPath : Option Path) :
    run environment selection logPath = attempt environment selection logPath >>= fun outcome =>
      settle outcome >>= fun _ => wrapUp := by
  unfold run conduct conclude wrapUp
  simp only [bind_assoc]

theorem catalog_close (world : World) : world.close.catalog = world.catalog := by
  unfold World.close World.saveLog
  split
  · rfl
  · split <;> rfl

theorem keepsCatalog_wrapUp : Always KeepsCatalog wrapUp :=
  (works_submit _).keepsCatalog.bind fun _ =>
    works_removeTempRoot.keepsCatalog.bind fun _ =>
      (works_note _).keepsCatalog.bind fun _ => always_modify catalog_close

theorem catalog_of_publish {result : Option Unit}
    (execution : Executes Interference (publish published >>= fun _ => wrapUp) world moves after result) :
    after.catalog = world.catalog.publish published := by
  unfold publish at execution
  rw [bind_assoc] at execution
  obtain ⟨replacing, _, -, toReplace, execution⟩ := executes_modify_bind_iff.1 execution
  obtain ⟨announcing, _, -, toAnnounce, execution⟩ := executes_modify_bind_iff.1 execution
  have replaced : announcing.catalog = replacing.catalog.replace published := keepsCatalog_of_gap toAnnounce
  calc after.catalog = announcing.catalog.announce published.length :=
        catalog_of_executes keepsCatalog_wrapUp execution
    _ = (world.catalog.replace published).announce published.length := by
        rw [replaced, show replacing.catalog = world.catalog from keepsCatalog_of_gap toReplace]

/-- What is published is announced, even if it is what was published before, so the catalog is another one. -/
theorem catalog_publish_ne (catalog : Catalog) (published : List Addon) : catalog.publish published ≠ catalog := by
  intro same
  have announced : catalog.announced ++ [published.length] = catalog.announced :=
    congrArg Catalog.announced same
  exact List.cons_ne_nil _ _ (List.append_right_eq_self.1 announced)

/-- A run that publishes (the catalog is another one then) has come to a list of addons to publish. -/
theorem exists_attempt_of_run {logPath : Option Path} {result : Option Unit}
    (execution : Executes Interference (run environment selection logPath) world moves after result)
    (publishes : after.catalog ≠ world.catalog) :
    ∃ trying ending tried published, moves = trying ++ ending ∧
      Executes Interference (attempt environment selection logPath) world trying tried (some (.ok published)) ∧
      after.catalog = world.catalog.publish published := by
  rw [run_eq] at execution
  rcases executes_bind_cases execution with
    ⟨trying, ending, tried, outcome, rfl, tries, ends⟩ | ⟨aborted, -⟩
  · have same := catalog_of_executes (keepsCatalog_attempt logPath) tries
    cases outcome with
    | error failure =>
        have keeps : Always KeepsCatalog (settle (.error failure) >>= fun _ => wrapUp) :=
          (works_error none _ _).keepsCatalog.bind fun _ => keepsCatalog_wrapUp
        exact absurd ((catalog_of_executes keeps ends).trans same) publishes
    | ok published =>
        refine ⟨trying, ending, tried, published, rfl, tries, ?_⟩
        rw [catalog_of_publish ends, same]
  · exact absurd (catalog_of_executes (keepsCatalog_attempt logPath) aborted) publishes

/-- The files before a run: two roots, with one addon in each, with one archive in each. -/
def twoAddons : World where
  tree := { entries := [(["mods".toList], .directory), (["mods".toList, "@A".toList], .directory),
    (["mods".toList, "@A".toList, "addons".toList], .directory),
    (["mods".toList, "@A".toList, "addons".toList, "main.pbo".toList], .file ByteArray.empty false),
    (["more".toList], .directory), (["more".toList, "@B".toList], .directory),
    (["more".toList, "@B".toList, "addons".toList], .directory),
    (["more".toList, "@B".toList, "addons".toList, "main.pbo".toList], .file ByteArray.empty false)] }

/-- The selection of all addons in these roots. -/
def twoRoots : Selection := { roots := ["mods", "more"], referenceDirectory := "ref", denied := [], allowed := [] }

end AddonIndex.Indexing
