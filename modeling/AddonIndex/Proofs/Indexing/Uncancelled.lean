import AddonIndex.Proofs.Indexing.Cancellation
import AddonIndex.Proofs.Indexing.Configs

/-!
# What uncancelled work does

As long as an addon is not cancelled, nothing that happens between the steps of
the work on it matters to that work. What the work sees and changes is a scene:
the files, the lists of directories and configs, the configs that were read, and
how many errors were reported. A stage without workers takes each scene to one
other scene; `Attains` carries such facts over sequences of steps.
-/

namespace AddonIndex

/-- Whether an event reports an error. -/
def Event.isError : Event → Bool
  | error _ _ _ => true
  | _ => false

namespace Indexing

open Activity ClassConfig

variable {α β : Type} {addon : Handle}

/-- How many errors were reported. -/
def World.errors (world : World) : Nat := world.channel.reported.countP Event.isError

/-- What the work on an addon sees and changes. -/
structure Scene where
  tree : FileTree
  extracted : List Path
  converted : List Path
  /-- The configs that were read for the addon, if it is enrolled. -/
  configs : Option (List ParsedConfig)
  errors : Nat

/-- The scene of the work on an addon. -/
def World.scene (addon : Handle) (world : World) : Scene where
  tree := world.tree
  extracted := world.extracted
  converted := world.converted
  configs := world.progress[addon.index]?.map Progress.configs
  errors := world.errors

/-- Whether an addon is not cancelled. -/
def Uncancelled (addon : Handle) (world : World) : Prop := (world.progressOf addon).cancelled = false

instance (addon : Handle) (world : World) : Decidable (Uncancelled addon world) :=
  inferInstanceAs (Decidable (_ = _))

/-- Whether a world can follow another one in any run. -/
abbrev Follows : World → World → Prop := Proceeds fun _ => True

theorem Uncancelled.of_follows {before after : World} (uncancelled : Uncancelled addon after)
    (follows : Follows before after) : Uncancelled addon before := by
  unfold Uncancelled at uncancelled ⊢
  rw [Bool.eq_false_iff] at uncancelled ⊢
  exact fun cancelled => uncancelled (follows.cancelled addon cancelled)

/-- Errors are not taken back. -/
theorem errors_le_of_follows {before after : World} (follows : Follows before after)
    (live : before.channel.Live) : before.errors ≤ after.errors := by
  obtain ⟨events, reported, -⟩ := follows.reports live
  unfold World.errors
  rw [reported, List.countP_append]
  exact Nat.le_add_right _ _

theorem follows_of_chain {world after : World} {moves : List (Move World)}
    (chain : Chain Interference world moves after)
    (follow : ∀ move ∈ moves, Follows move.1 move.2) : Follows world after :=
  chain.relates Proceeds.refl (fun _ _ _ => Proceeds.trans) (fun _ _ => Proceeds.of_interference) follow

theorem follows_of_gap {world after : World} (gap : Relation.ReflTransGen Interference world after) :
    Follows world after :=
  follows_of_chain (show Chain Interference world [] after from gap) (List.forall_mem_nil _)

/-! ## Interference -/

theorem scene_cancel {world : World} {other : Handle}
    (uncancelled : Uncancelled addon (world.updateProgress other Progress.cancel)) :
    (world.updateProgress other Progress.cancel).scene addon = world.scene addon := by
  unfold Uncancelled at uncancelled
  rw [progressOf_updateProgress] at uncancelled
  have progress : (world.updateProgress other Progress.cancel).progress[addon.index]? =
      world.progress[addon.index]? := by
    unfold World.updateProgress
    rw [List.getElem?_modify]
    by_cases same : other.index = addon.index
    · have outside : ¬ other.index < world.progress.length := by
        intro inside
        rw [if_pos ⟨same, inside⟩] at uncancelled
        cases uncancelled
      rw [same] at outside
      simp [List.getElem?_eq_none (Nat.le_of_not_lt outside)]
    · simp [same]
  unfold World.scene
  rw [progress]
  rfl

theorem scene_of_interference {world after : World}
    (gap : Relation.ReflTransGen Interference world after) (uncancelled : Uncancelled addon after) :
    after.scene addon = world.scene addon := by
  induction gap with
  | refl => rfl
  | tail _ last ih =>
      rw [← ih (uncancelled.of_follows (.of_interference last))]
      cases last with
      | cancel other => exact scene_cancel uncancelled
      | deliver =>
          unfold World.scene World.errors
          rw [EventChannel.reported_deliverNext]

theorem scene_cancelNamed {world : World} {names : List Text}
    (uncancelled : Uncancelled addon (world.cancelNamed names)) :
    (world.cancelNamed names).scene addon = world.scene addon :=
  scene_of_interference (gap_cancelNamed world names) uncancelled

theorem live_of_interference {world after : World}
    (gap : Relation.ReflTransGen Interference world after) (live : world.channel.Live) :
    after.channel.Live :=
  (reported_of_interference gap live).1

/-! ## Goals -/

/-- Whether every execution of an activity that begins in a scene and leaves the addon uncancelled
comes to an answer and a scene of a kind. -/
def Attains (addon : Handle) (activity : Run α) (scene : Scene) (goal : α → Scene → Prop) : Prop :=
  ∀ world moves after result, Executes Interference activity world moves after result →
    (∀ move ∈ moves, Follows move.1 move.2) → world.channel.Live → Uncancelled addon after →
    world.scene addon = scene → ∃ answer, result = some answer ∧ goal answer (after.scene addon)

variable {scene : Scene} {goal : α → Scene → Prop}

theorem Attains.mono {activity : Run α} {other : α → Scene → Prop}
    (attains : Attains addon activity scene goal)
    (weaker : ∀ answer scene, goal answer scene → other answer scene) :
    Attains addon activity scene other := by
  intro world moves after result execution follow live uncancelled begins
  obtain ⟨answer, rfl, reached⟩ := attains world moves after result execution follow live uncancelled begins
  exact ⟨answer, rfl, weaker _ _ reached⟩

theorem attains_pure {answer : α} (reached : goal answer scene) :
    Attains addon (pure answer : Run α) scene goal := by
  intro world moves after result execution follow live uncancelled begins
  obtain ⟨-, rfl, gap⟩ := executes_pure_iff.1 execution
  exact ⟨answer, rfl, by rwa [scene_of_interference gap uncancelled, begins]⟩

theorem Attains.bind {first : Run α} {next : α → Run β} {goal : β → Scene → Prop}
    (attains : Attains addon first scene fun found middle => Attains addon (next found) middle goal) :
    Attains addon (first >>= next) scene goal := by
  intro world moves after result execution follow live uncancelled begins
  rcases executes_bind_cases execution with
    ⟨before, later, middle, found, rfl, left, right⟩ | ⟨aborted, -⟩
  · have followLater : ∀ move ∈ later, Follows move.1 move.2 := fun move member =>
      follow move (List.mem_append_right _ member)
    have followBefore : ∀ move ∈ before, Follows move.1 move.2 := fun move member =>
      follow move (List.mem_append_left _ member)
    obtain ⟨_, same, reached⟩ := attains world before middle _ left followBefore live
      (uncancelled.of_follows (follows_of_chain right.2 followLater)) begins
    cases same
    exact reached middle later after result right followLater
      ((follows_of_chain left.2 followBefore).live live) uncancelled rfl
  · obtain ⟨_, none, -⟩ := attains world moves after none aborted follow live uncancelled begins
    cases none

/-- One step attains a goal if it does so from every world with the scene. -/
theorem attains_act {action : World → α × World}
    (reached : ∀ world, world.channel.Live → Uncancelled addon world →
      Uncancelled addon (action world).2 → world.scene addon = scene →
        goal (action world).1 ((action world).2.scene addon)) :
    Attains addon (act action) scene goal := by
  intro world moves after result execution follow live uncancelled begins
  obtain ⟨seen, rfl, rfl, before, gap⟩ := executes_act_iff.1 execution
  have changed : Uncancelled addon (action seen).2 :=
    uncancelled.of_follows (follows_of_gap gap)
  have uncancelledSeen := changed.of_follows (follow _ List.mem_cons_self)
  refine ⟨_, rfl, ?_⟩
  rw [scene_of_interference gap uncancelled]
  exact reached seen (live_of_interference before live) uncancelledSeen changed
    ((scene_of_interference before uncancelledSeen).trans begins)

theorem attains_modify {change : World → World} {goal : Unit → Scene → Prop}
    (reached : ∀ world, world.channel.Live → Uncancelled addon (change world) →
      world.scene addon = scene → goal () ((change world).scene addon)) :
    Attains addon (modify change) scene goal :=
  @attains_act _ addon scene goal (fun world => ((), change world)) fun world live _ changed begins =>
    reached world live changed begins

theorem attains_inspect {look : World → α}
    (reached : ∀ world, Uncancelled addon world → world.scene addon = scene → goal (look world) scene) :
    Attains addon (inspect look) scene goal :=
  @attains_act _ addon scene goal (fun world => (look world, world))
    fun world _ uncancelled _ begins => by
      rw [begins]
      exact reached world uncancelled begins

/-! ## Single steps -/

theorem attains_isCancelled {goal : Bool → Scene → Prop} (reached : goal false scene) :
    Attains addon (isCancelled addon) scene goal :=
  attains_inspect fun _ uncancelled _ => by
    rw [uncancelled]
    exact reached

theorem attains_lookAt {look : FileTree → α} (reached : goal (look scene.tree) scene) :
    Attains addon (lookAt look) scene goal :=
  attains_inspect fun _ _ begins => by
    rw [← begins] at reached ⊢
    exact reached

theorem attains_perform {operation : FileOp α} {goal : Except FileError α → Scene → Prop}
    (reached : goal (operation.run scene.tree).2
      { scene with tree := (operation.run scene.tree).1 }) :
    Attains addon (perform operation) scene goal :=
  attains_act fun _ _ _ _ begins => by
    rw [← begins] at reached
    exact reached

theorem attains_note {line : Text} {goal : Unit → Scene → Prop} (reached : goal () scene) :
    Attains addon (note line) scene goal :=
  attains_modify fun _ _ _ begins => by
    rw [← begins] at reached
    exact reached

theorem attains_count {change : Tally → Tally} {goal : Unit → Scene → Prop} (reached : goal () scene) :
    Attains addon (count change) scene goal :=
  attains_modify fun _ _ _ begins => by
    rw [← begins] at reached
    exact reached

theorem attains_submit {event : Event} {goal : Unit → Scene → Prop}
    (reached : goal () { scene with errors := scene.errors + if event.isError then 1 else 0 }) :
    Attains addon (submit event) scene goal :=
  attains_modify fun world live _ begins => by
    have errors : (World.errors { world with channel := world.channel.submit event }) =
        world.errors + if event.isError then 1 else 0 := by
      unfold World.errors
      rw [EventChannel.reported_submit live, List.countP_append, List.countP_singleton]
    rw [← begins] at reached
    unfold World.scene
    rw [errors]
    exact reached

/-- An event that is no error leaves the scene. -/
theorem attains_tell {event : Event} {goal : Unit → Scene → Prop} (noError : event.isError = false)
    (reached : goal () scene) : Attains addon (submit event) scene goal :=
  attains_submit (by rwa [noError])

theorem attains_message {other : Handle} {text : Text} {goal : Unit → Scene → Prop}
    (reached : goal () scene) : Attains addon (message other text) scene goal :=
  .bind (attains_note (attains_tell rfl reached))

theorem attains_error {other : Option Handle} {text : Text} {detail : Option Text}
    {goal : Unit → Scene → Prop} (reached : goal () { scene with errors := scene.errors + 1 }) :
    Attains addon (error other text detail) scene goal :=
  .bind (attains_modify fun _ _ _ begins => by
    rw [← begins] at reached
    exact attains_submit reached)

theorem attains_warning {other : Handle} {text : Text} {detail : Option Text} {goal : Unit → Scene → Prop}
    (reached : goal () scene) : Attains addon (warning other text detail) scene goal :=
  .bind (attains_modify fun _ _ _ begins => by
    rw [← begins] at reached
    exact attains_tell rfl reached)

theorem configs_updateProgress {world : World} {change : Progress → Progress}
    {effect : List ParsedConfig → List ParsedConfig}
    (effects : ∀ progress, (change progress).configs = effect progress.configs) :
    (world.updateProgress addon change).scene addon =
      { world.scene addon with configs := (world.scene addon).configs.map effect } := by
  unfold World.scene World.updateProgress
  simp only [List.getElem?_modify, if_true]
  cases world.progress[addon.index]? with
  | none => rfl
  | some progress =>
      simp only [Option.map_eq_map, Option.map_some, effects]
      rfl

theorem attains_updateProgress {change : Progress → Progress} {goal : Unit → Scene → Prop}
    {effect : List ParsedConfig → List ParsedConfig}
    (effects : ∀ progress, (change progress).configs = effect progress.configs)
    (reached : goal () { scene with configs := scene.configs.map effect }) :
    Attains addon (modify (World.updateProgress · addon change)) scene goal :=
  attains_modify fun _ _ _ begins => by
    rw [configs_updateProgress effects, begins]
    exact reached

/-- A change of progress that concerns no configs leaves the scene. -/
theorem attains_keepConfigs {change : Progress → Progress} {goal : Unit → Scene → Prop}
    (keeps : ∀ progress, (change progress).configs = progress.configs) (reached : goal () scene) :
    Attains addon (modify (World.updateProgress · addon change)) scene goal :=
  @attains_updateProgress addon scene change goal id keeps (by rwa [Option.map_id])

theorem attains_beginWork {units : Nat} {goal : Unit → Scene → Prop} (reached : goal () scene) :
    Attains addon (beginWork addon units) scene goal := by
  refine .bind (attains_keepConfigs ?_ (.bind (attains_tell rfl (attains_tell rfl reached))))
  exact fun _ => rfl

theorem attains_unitDone {goal : Unit → Scene → Prop} (reached : goal () scene) :
    Attains addon (unitDone addon) scene goal := by
  refine .bind (attains_act fun world live _ changed begins => ?_)
  have advanced := @configs_updateProgress addon world Progress.advance id fun _ => rfl
  rw [begins, Option.map_id] at advanced
  rw [advanced]
  exact attains_tell rfl reached

theorem attains_withStage {stage : Stage} {activity : Run α}
    (attains : Attains addon activity scene goal) : Attains addon (withStage addon stage activity) scene goal :=
  .bind (attains_tell rfl (.bind (attains.mono fun _ _ reached =>
    .bind (attains_tell rfl (attains_pure reached)))))

/-! ## Stages without workers -/

/-- What reading a config comes back with. -/
def readResult (reader : ConfigReader) (tree : FileTree) (config : Path) : Except ConfigError ParsedConfig :=
  (reader config (config.parent?.getD config) tree).result

/-- The scene after a config was read. -/
def Scene.read (reader : ConfigReader) (scene : Scene) (config : Path) : Scene :=
  match readResult reader scene.tree config with
  | .ok parsed => { scene with configs := scene.configs.map (· ++ [parsed]) }
  | .error _ => { scene with errors := scene.errors + 1 }

/-- The scene after a file was copied into an entry. -/
def Scene.copy (entry : Path) (scene : Scene) (item : Text × Reference.SourceFile) : Scene :=
  match (ReferenceCache.copy entry item.1 item.2).run scene.tree with
  | (tree, .ok _) => { scene with tree }
  | (tree, .error _) => { scene with tree, errors := scene.errors + 1 }

/-- The scene after an entry was marked as complete. -/
def Scene.mark (entry : Path) (scene : Scene) : Scene :=
  match (ReferenceCache.markValid entry).run scene.tree with
  | (tree, .ok ()) => { scene with tree }
  | (tree, .error _) => { scene with tree, errors := scene.errors + 1 }

/-- The scene after an addon was saved, and whether its entry was prepared. -/
def Scene.save (cache : ReferenceCache) (addon : Text) (scene : Scene) : StageStatus × Scene :=
  match (cache.prepare addon).run scene.tree with
  | (tree, .error _) => (.stopped, { scene with tree, errors := scene.errors + 1 })
  | (tree, .ok entry) =>
      let copied := (AddonWork.savePlan scene.extracted tree).foldl (Scene.copy entry) { scene with tree }
      (.completed, copied.mark entry)

namespace AddonWork

variable {work : AddonWork}

theorem attains_status {goal : StageStatus → Scene → Prop} (reached : goal .completed scene) :
    Attains work.addon work.status scene goal :=
  .bind (attains_isCancelled (attains_pure reached))

theorem attains_parseEach {configs : List Path} {goal : StageStatus → Scene → Prop}
    (reached : goal .completed (configs.foldl (Scene.read work.environment.reader) scene)) :
    Attains work.addon (work.parseEach configs) scene goal := by
  induction configs generalizing scene with
  | nil => exact attains_pure reached
  | cons config rest ih =>
      unfold parseEach
      refine .bind (attains_isCancelled (.bind (attains_act fun world _ _ changed begins => ?_)))
      rw [scene_cancelNamed changed, begins]
      obtain rfl := begins
      rw [List.foldl_cons, Scene.read] at reached
      split
      · rename_i parsed same
        have same : readResult work.environment.reader (world.scene work.addon).tree config = .ok parsed := same
        rw [same] at reached
        refine .bind (attains_count (.bind (attains_updateProgress ?_ (.bind (attains_message
          (.bind (attains_unitDone (ih reached))))))))
        exact fun _ => rfl
      · rename_i e same
        have same : readResult work.environment.reader (world.scene work.addon).tree config = .error e := same
        rw [same] at reached
        exact .bind (attains_count (.bind (attains_error (.bind (attains_unitDone (ih reached))))))

/-- Parsing reads each config of the list in turn. -/
theorem attains_parse {configs : List Path} {goal : StageStatus → Scene → Prop}
    (reached : goal .completed (configs.foldl (Scene.read work.environment.reader) scene)) :
    Attains work.addon (work.parse configs) scene goal :=
  attains_withStage (.bind (attains_beginWork (attains_parseEach reached)))

theorem attains_saveEach {entry : Path} {plan : List (Text × Reference.SourceFile)}
    {goal : StageStatus → Scene → Prop} (reached : goal .completed (plan.foldl (Scene.copy entry) scene)) :
    Attains work.addon (work.saveEach entry plan) scene goal := by
  induction plan generalizing scene with
  | nil => exact attains_pure reached
  | cons item rest ih =>
      obtain ⟨name, file⟩ := item
      rw [List.foldl_cons, Scene.copy] at reached
      unfold saveEach
      refine .bind (attains_isCancelled (.bind (attains_perform ?_)))
      generalize (ReferenceCache.copy entry name file).run scene.tree = copied at reached ⊢
      obtain ⟨tree, target | cause⟩ := copied
      · exact .bind (attains_count (.bind (attains_error (.bind (attains_unitDone (ih reached))))))
      · exact .bind (attains_count (.bind (attains_message (.bind (attains_unitDone (ih reached))))))

theorem attains_setReference {entry : Path} {goal : Unit → Scene → Prop} (reached : goal () scene) :
    Attains work.addon (work.setReference entry) scene goal := by
  refine attains_keepConfigs ?_ reached
  exact fun _ => rfl

/-- Saving prepares the entry, copies each file of the plan in turn, and marks the entry. -/
theorem attains_save {goal : StageStatus → Scene → Prop}
    (reached : goal (scene.save work.cache work.addon.name).1 (scene.save work.cache work.addon.name).2) :
    Attains work.addon work.save scene goal := by
  refine attains_withStage (.bind (attains_perform ?_))
  unfold Scene.save at reached
  generalize (work.cache.prepare work.addon.name).run scene.tree = prepared at reached ⊢
  obtain ⟨tree, cause | entry⟩ := prepared
  · exact .bind (attains_error (attains_pure reached))
  · refine .bind (attains_setReference (.bind (attains_inspect fun world _ begins => ?_)))
    have extracted : world.extracted = scene.extracted := congrArg Scene.extracted begins
    rw [extracted]
    refine .bind (attains_lookAt (.bind (attains_beginWork (.bind (attains_saveEach
      (.bind (attains_perform ?_)))))))
    simp only [Scene.mark] at reached
    generalize ((savePlan scene.extracted tree).foldl (Scene.copy entry)
      { scene with tree }) = copied at reached ⊢
    generalize (ReferenceCache.markValid entry).run copied.tree = marked at reached ⊢
    obtain ⟨last, cause | ⟨⟩⟩ := marked
    · exact .bind (attains_error (attains_pure reached))
    · exact attains_pure reached

theorem attains_noteTexts {texts : List Path} {goal : Unit → Scene → Prop} (reached : goal () scene) :
    Attains addon (noteTexts texts) scene goal := by
  induction texts with
  | nil => exact attains_pure reached
  | cons text rest ih => exact .bind (attains_note ih)

/-- The configs of all directories are found. -/
theorem attains_findConfigs {directories : List Path} {goal : Option ConfigFiles → Scene → Prop}
    (reached : goal (some (allConfigs directories scene.tree)) scene) :
    Attains work.addon (work.findConfigs directories) scene goal := by
  induction directories generalizing goal with
  | nil => exact attains_pure reached
  | cons directory rest ih =>
      refine .bind (attains_isCancelled (.bind (attains_lookAt (.bind (ih (attains_pure ?_))))))
      exact reached

/-- An addon with a valid entry is read from it: all text configs in the entry are parsed. -/
theorem attains_readFromCache {goal : Bool → Scene → Prop}
    (valid : work.cache.state work.addon.name scene.tree = .valid)
    (reached : goal true ((ReferenceCache.configFiles (work.cache.entry work.addon.name) scene.tree).foldl
      (Scene.read work.environment.reader) scene)) :
    Attains work.addon work.readFromCache scene goal := by
  refine .bind (attains_lookAt ?_)
  rw [valid]
  exact .bind (attains_note (.bind (attains_count (.bind (attains_setReference
    (.bind (attains_lookAt (.bind (attains_parse (attains_pure reached)))))))))) 

end AddonWork

/-! ## Reading configs -/

/-- The configs of a list as they are read, without those that cannot be read. -/
def parsedConfigs (reader : ConfigReader) (tree : FileTree) (configs : List Path) : List ParsedConfig :=
  configs.filterMap fun config => (readResult reader tree config).toOption

/-- Reading configs changes no files. What can be read is kept, and what cannot is reported. -/
theorem foldl_read (reader : ConfigReader) (configs : List Path) (scene : Scene) :
    configs.foldl (Scene.read reader) scene =
      { scene with
        configs := scene.configs.map (· ++ parsedConfigs reader scene.tree configs)
        errors := scene.errors + configs.countP fun config => !(readResult reader scene.tree config).isOk } := by
  induction configs generalizing scene with
  | nil => simp [parsedConfigs]
  | cons config rest ih =>
      rw [List.foldl_cons, ih]
      unfold Scene.read parsedConfigs
      rw [List.filterMap_cons, List.countP_cons]
      cases readResult reader scene.tree config with
      | ok parsed => simp [Except.toOption, Except.isOk, Except.toBool, Function.comp_def]
      | error e => simp [Except.toOption, Except.isOk, Except.toBool]; omega

end Indexing

end AddonIndex
