import AddonIndex.Proofs.Indexing.ListingOrder

/-!
# Runs on different file systems

File systems that hold the same entries may list them in different orders, and in other ones at any time. Whatever a run
does on one of them it can do on every other one, as long as no addon has several directories that may hold its
archives: the same addons are found, the same is reported, counted and published, and the same files are left. Only the
file of the log may differ, in the order in which it names addons that were left out.
-/

namespace AddonIndex

namespace Indexing

open Activity FileTree FileOp

variable {α : Type} {guard : World → Prop} {world after other ended : World} {environment : Environment}
  {selection : Selection}

/-! ## File systems -/

/-- A file system, as far as it concerns listing: how it lists the entries of a tree. -/
structure FileSystem where
  relist : FileTree → FileTree
  same : ∀ tree : FileTree, tree.Distinct → tree.SameEntries (relist tree)

namespace FileSystem

/-- What may happen between the steps of a run: addons are cancelled, events are delivered, and the file system
lists its entries anew. -/
inductive Passes (system : FileSystem) : World → World → Prop
  | interferes {world after : World} (interferes : Interference world after) : Passes system world after
  | relists (world : World) : Passes system world { world with tree := system.relist world.tree }

/-- Whether an activity can lead from a world to another one by the given steps, each of which finds the files as the
file system lists them. -/
def Executes (system : FileSystem) (activity : Run α) (world : World) (moves : List (Move World)) (after : World)
    (result : Option α) : Prop :=
  Activity.Executes system.Passes activity world moves after result ∧
    ∀ move ∈ moves, ∃ tree, move.1.tree = system.relist tree

variable {system another : FileSystem} {moves : List (Move World)} {result : Option α}

/-- What passes on one file system leaves worlds alike if something passes on another one. -/
theorem exists_passes (alike : world.Alike other) (passes : system.Passes world after) :
    ∃ ended, Relation.ReflTransGen another.Passes other ended ∧ after.Alike ended := by
  cases passes with
  | relists =>
      rcases alike with ⟨tree, log, named, same⟩
      have listed := system.same world.tree same.distinct
      exact ⟨_, .refl, .intro { world with tree := system.relist world.tree } tree log (listed.named named)
        (listed.symm.trans same)⟩
  | interferes interferes =>
      cases interferes with
      | cancel addon =>
          exact ⟨_, .single (.interferes (.cancel other addon)), (ignoresFiles_updateProgress _ _).alike alike⟩
      | deliver =>
          have ignores : IgnoresFiles fun world => { world with channel := world.channel.deliverNext } :=
            fun _ => ⟨rfl, fun _ log => ⟨log, rfl⟩⟩
          exact ⟨_, .single (.interferes (.deliver other)), ignores.alike alike⟩

/-- A file system can list its entries anew at any time. -/
theorem exists_relisted (alike : world.Alike other) :
    ∃ ended, Relation.ReflTransGen another.Passes other ended ∧ world.Alike ended ∧
      ∃ tree, ended.tree = another.relist tree := by
  rcases alike with ⟨tree, log, named, same⟩
  exact ⟨_, .single (.relists _), .intro world (another.relist tree) log named
    (same.trans (another.same tree same.distinct_right)), tree, rfl⟩

/-- Whatever is done on one file system by what does the same in like worlds can be done on another one. -/
theorem exists_execution {activity : Run α} (another : FileSystem) (steadfast : Steadfast guard activity)
    (execution : system.Executes activity world moves after result) (guarded : ∀ move ∈ moves, guard move.1)
    (alike : world.Alike other) :
    ∃ answers ended, another.Executes activity other answers ended result ∧ after.Alike ended := by
  rcases steadfast.exists_execution execution.1 guarded alike (fun _ _ _ => exists_passes)
    (fun _ _ => exists_relisted) with ⟨answers, ended, same, executes, isAlike, agree, listed⟩
  exact ⟨answers, ended, ⟨eq_of_rel agree ▸ executes, listed⟩, isAlike⟩

end FileSystem

/-! ## A run on another file system -/

/-- A run up to the discovery of the addon directories. -/
def survey (environment : Environment) (selection : Selection) (logPath : Option Path) :
    Run (Except RunFailure (List Path)) := do
  openLog logPath
  note "[BEGIN LOAD ADDONS]"
  match ← ensureReferenceRoot selection.referenceRoot with
  | .error failure => return .error failure
  | .ok () =>
  match ← callTool environment.tools.check with
  | .error e => return .error (.toolsUnavailable e)
  | .ok _ => return .ok (← discover selection selection.roots)

/-- The work on addons, and the end of a run. -/
def workOff (environment : Environment) (selection : Selection) (addons : List Handle) : Run Unit := do
  submit (.started selection addons)
  conclude (← indexAll environment selection.referenceRoot addons)

theorem conduct_eq (logPath : Option Path) :
    conduct environment selection logPath = survey environment selection logPath >>= fun
      | .error failure => conclude (.error failure)
      | .ok directories => enroll directories >>= workOff environment selection := by
  unfold conduct attempt loadAddons survey workOff
  simp only [bind_assoc]
  apply congrArg
  funext _
  apply congrArg
  funext _
  apply congrArg
  funext ensured
  cases ensured with
  | error failure => rfl
  | ok _ =>
      simp only [bind_assoc]
      apply congrArg
      funext checked
      cases checked with
      | error e => rfl
      | ok _ =>
          simp only [bind_assoc]
          rfl

theorem steadfast_survey (steady : environment.Steady) (logPath : Option Path) :
    Steadfast guard (survey environment selection logPath) := by
  apply (steadfast_openLog logPath).bind
  intro _
  apply (steadfast_note _).bind
  intro _
  apply (steadfast_ensureReferenceRoot _).bind
  intro ensured
  split
  · exact steadfast_pure _
  · apply (steadfast_callTool steady.check).bind
    intro checked
    split
    · exact steadfast_pure _
    · exact (steadfast_discover _ _).bind fun _ => steadfast_pure _

theorem steadfast_workOff (steady : environment.Steady) {addons : List Handle}
    (one : ∀ world, guard world → ∀ addon ∈ addons, HasOneContainer world.tree addon.directory) :
    Steadfast guard (workOff environment selection addons) :=
  (steadfast_submit _).bind fun _ => (steadfast_indexAll steady one _).bind fun outcome => steadfast_conclude outcome

/-! ### The addons of a run -/

/-- Whether the addons of a run are the same in two worlds. -/
def KeepsHandles (before after : World) : Prop := after.handles = before.handles

theorem handles_cancelNamed (world : World) (names : List Text) :
    (world.cancelNamed names).handles = world.handles :=
  @holds_cancelNamed world (fun after => after.handles = world.handles) names rfl fun _ _ same => same

theorem WorkStep.keepsHandles {reads : Handle → Prop} (step : WorkStep reads world after) :
    KeepsHandles world after := by
  cases step with
  | call _ names => exact handles_cancelNamed _ names
  | _ => rfl

theorem FileSystem.Passes.keepsHandles {system : FileSystem} (passes : system.Passes world after) :
    KeepsHandles world after := by
  cases passes with
  | relists => rfl
  | interferes interferes => cases interferes <;> rfl

theorem FileSystem.keepsHandles_of_gap {system : FileSystem} (gap : Relation.ReflTransGen system.Passes world after) :
    KeepsHandles world after := by
  induction gap with
  | refl => rfl
  | tail _ last ih => exact Eq.trans last.keepsHandles ih

/-- Once its addons are enrolled, a run works on them to its end. -/
theorem keepsHandles_workOff (addons : List Handle) : Always KeepsHandles (workOff environment selection addons) := by
  have ofWorks : ∀ {α : Type} {activity : Run α}, Works (fun _ => True) activity → Always KeepsHandles activity :=
    fun works => works.mono fun _ _ step => step.keepsHandles
  apply (ofWorks (works_submit _)).bind
  intro _
  apply (ofWorks (works_indexAll _ addons)).bind
  intro outcome
  apply Always.bind
  · cases outcome with
    | error failure => exact ofWorks (works_error _ _ _)
    | ok addons =>
        apply Always.bind
        · exact always_modify fun _ => rfl
        · exact fun _ => always_modify fun _ => rfl
  · exact fun _ => (ofWorks (works_submit _)).bind fun _ => (ofWorks works_removeTempRoot).bind fun _ =>
      ofWorks (works_note _)

variable {system another : FileSystem} {moves : List (Move World)} {result : Option Unit} {logPath : Option Path}

/-- Whether no addon of a run has several directories that may hold its archives, from its enrolment on. -/
def HasOneContainerEach (moves : List (Move World)) : Prop :=
  ∀ move ∈ moves, ∀ addon ∈ move.2.handles, HasOneContainer move.1.tree addon.directory

namespace FileSystem

/-- Executions follow one another on a file system. -/
theorem Executes.bind {β : Type} {activity : Run α} {next : α → Run β} {answer : α} {middle : World}
    {before rest : List (Move World)} {result : Option β}
    (first : system.Executes activity world before middle (some answer))
    (second : system.Executes (next answer) middle rest after result) :
    system.Executes (activity >>= next) world (before ++ rest) after result :=
  ⟨first.1.bind second.1, List.forall_mem_append.2 ⟨first.2, second.2⟩⟩

/-- A sequence is carried out as a whole, or its first part is aborted. -/
theorem executes_bind_cases {β : Type} {activity : Run α} {next : α → Run β} {result : Option β}
    (execution : system.Executes (activity >>= next) world moves after result) :
    (∃ before rest answer middle, moves = before ++ rest ∧ system.Executes activity world before middle (some answer) ∧
      system.Executes (next answer) middle rest after result) ∨
    (system.Executes activity world moves after none ∧ result = none) := by
  rcases execution with ⟨⟨traced, chain⟩, listed⟩
  rcases traces_bind_iff.1 traced with ⟨before, rest, answer, rfl, left, right⟩ | ⟨left, rfl⟩
  · rcases chain_append_iff.1 chain with ⟨middle, leftChain, rightChain⟩
    rcases List.forall_mem_append.1 listed with ⟨leftListed, rightListed⟩
    exact .inl ⟨before, rest, answer, middle, rfl, ⟨⟨left, leftChain⟩, leftListed⟩, ⟨right, rightChain⟩, rightListed⟩
  · exact .inr ⟨⟨⟨left, chain⟩, listed⟩, rfl⟩

theorem executes_bind_none {β : Type} {activity : Run α} {next : α → Run β}
    (execution : system.Executes activity world moves after none) :
    system.Executes (activity >>= next) world moves after none :=
  ⟨⟨traces_bind_iff.2 (.inr ⟨execution.1.1, rfl⟩), execution.1.2⟩, execution.2⟩

/-- If the first part of a sequence can be repeated on another file system, and then the rest, so can the whole. -/
theorem exists_bind {β : Type} {activity : Run α} {next : α → Run β} {result : Option β} {ends : World → World → Prop}
    (execution : system.Executes (activity >>= next) world moves after result)
    (aborts : ∀ ended, after.Alike ended → ends after ended)
    (begins : ∀ before rest middle found, moves = before ++ rest → system.Executes activity world before middle found →
      ∃ answers reached, another.Executes activity other answers reached found ∧ middle.Alike reached)
    (goesOn : ∀ before rest middle answer reached, moves = before ++ rest →
      system.Executes activity world before middle (some answer) → middle.Alike reached →
      system.Executes (next answer) middle rest after result →
      ∃ answers ended, another.Executes (next answer) reached answers ended result ∧ ends after ended) :
    ∃ answers ended, another.Executes (activity >>= next) other answers ended result ∧ ends after ended := by
  rcases executes_bind_cases execution with ⟨before, rest, answer, middle, split, first, second⟩ | ⟨first, rfl⟩
  · rcases begins before rest middle (some answer) split first with ⟨answers, reached, begun, alike⟩
    rcases goesOn before rest middle answer reached split first alike second with ⟨more, ended, executes, reaches⟩
    exact ⟨answers ++ more, ended, begun.bind executes, reaches⟩
  · rcases begins moves [] after none (List.append_nil _).symm first with ⟨answers, ended, aborted, alike⟩
    exact ⟨answers, ended, executes_bind_none aborted, aborts ended alike⟩

/-- What follows the enrolment of addons meets them at every step. -/
theorem handles_of_enroll {directories : List Path} {middle : World} {addons : List Handle}
    {before rest : List (Move World)}
    (enrolls : system.Executes (enroll directories) world before middle (some addons))
    (works : system.Executes (workOff environment selection addons) middle rest after result) :
    ∀ move ∈ rest, move.2.handles = addons := by
  rcases executes_act_iff.1 enrolls.1 with ⟨seen, rfl, same, -, gap⟩
  have enrolled : middle.handles = addons := (keepsHandles_of_gap gap).trans (Option.some.inj same).symm
  have keeps : ∀ move ∈ rest, KeepsHandles middle move.1 ∧ KeepsHandles middle move.2 := by
    apply works.1.2.relates_moves
    · exact fun _ => rfl
    · exact fun _ _ _ first second => Eq.trans second first
    · exact fun _ _ passes => passes.keepsHandles
    · exact (keepsHandles_workOff _).of_traces works.1.1
  exact fun move member => (keeps move member).2.trans enrolled

end FileSystem

/-- Whatever a run does up to its end on one file system it can do on another one. -/
theorem exists_conduct (another : FileSystem) (steady : environment.Steady) (alike : world.Alike other)
    (execution : system.Executes (conduct environment selection logPath) world moves after result)
    (one : HasOneContainerEach moves) :
    ∃ answers ended, another.Executes (conduct environment selection logPath) other answers ended result ∧
      after.Alike ended := by
  have repeats : ∀ {α : Type} {activity : Run α} {world other middle : World} {moves : List (Move World)}
      {found : Option α}, Steadfast (fun _ => True) activity → world.Alike other →
      system.Executes activity world moves middle found →
      ∃ answers reached, another.Executes activity other answers reached found ∧ middle.Alike reached :=
    fun steadfast alike executes =>
      FileSystem.exists_execution another steadfast executes (fun _ _ => trivial) alike
  rw [conduct_eq] at execution ⊢
  apply FileSystem.exists_bind execution fun _ => id
  · exact fun _ _ _ _ _ => repeats (steadfast_survey steady logPath) alike
  rintro surveying rest middle (failure | directories) reached rfl - alike execution
  · exact repeats (steadfast_conclude _) alike execution
  apply FileSystem.exists_bind execution fun _ => id
  · exact fun _ _ _ _ _ => repeats (steadfast_enroll directories) alike
  rintro enrolling rest enrolled addons reached rfl enrolls alike works
  -- From here on the addons are known, and each has one container at most.
  apply FileSystem.exists_execution another _ works _ alike
  · exact fun world => ∀ addon ∈ addons, HasOneContainer world.tree addon.directory
  · exact steadfast_workOff steady fun _ => id
  · intro move member addon isAddon
    apply one move (List.mem_append_right _ (List.mem_append_right _ member))
    rw [FileSystem.handles_of_enroll enrolls works move member]
    exact isAddon

/-! ### The end of a run -/

/-- Whether a place is that of the file of the log. -/
def World.IsLogFile (world : World) (place : Location) : Prop :=
  ∃ path, world.logPath = some path ∧ place = world.tree.location path

/-- Whether two worlds are the same but for the order of listing, the log, and what is in the file of the log. -/
inductive World.AlikeButLog : World → World → Prop
  | intro (world : World) (tree : FileTree) (log : RunLog) (distinct : world.tree.Distinct)
      (entries : ∀ place, ¬ world.IsLogFile place → tree.entryAt? place = world.tree.entryAt? place) :
      AlikeButLog world { world with tree, log }

theorem World.Alike.alikeButLog (alike : world.Alike other) : world.AlikeButLog other := by
  rcases alike with ⟨tree, log, named, same⟩
  exact .intro world tree log same.distinct fun place _ => same.entryAt? place

/-- What is written to a file leaves everything else as it is. -/
theorem entryAt?_writeBytes {tree : FileTree} (named : tree.Named) (path : Path) (content : ByteArray)
    {place : Location} (elsewhere : place ≠ tree.location path) :
    ((writeBytes path content).run tree).1.entryAt? place = tree.entryAt? place := by
  let realm : Realm := { tree, owned := fun place => place = tree.location path, way := fun _ => False }
  have staysIn : StaysIn realm (writeBytes path content) := staysIn_writeBytes rfl
  rcases (staysIn tree (Realm.Bounds.refl named)).entryAt? place with same | isLog | ⟨⟨⟩, -⟩
  · exact same
  · exact absurd isLog elsewhere

theorem saveLog_eq (world : World) : world.saveLog = { world with tree := world.saveLog.tree } := by
  unfold World.saveLog
  split
  · rfl
  · split
    · rfl
    · rfl

theorem entryAt?_saveLog (named : world.tree.Named) {place : Location} (elsewhere : ¬ world.IsLogFile place) :
    world.saveLog.tree.entryAt? place = world.tree.entryAt? place := by
  unfold World.saveLog
  split
  · rfl
  · rename_i path logged
    split
    · exact entryAt?_writeBytes named path _ fun same => elsewhere ⟨path, logged, same⟩
    · rfl

theorem distinct_saveLog (distinct : world.tree.Distinct) : world.saveLog.tree.Distinct := by
  unfold World.saveLog
  split
  · exact distinct
  · split
    · exact distinct.applyAll _
    · exact distinct

theorem workingDirectory_saveLog (world : World) :
    world.saveLog.tree.workingDirectory = world.tree.workingDirectory := by
  unfold World.saveLog
  split
  · rfl
  · split
    · exact workingDirectory_applyAll _ _
    · rfl

/-- At the end only the file of the log is written, which need not tell the same. -/
theorem alikeButLog_saveLog (alike : world.Alike other) : world.saveLog.AlikeButLog other.saveLog := by
  rcases alike with ⟨tree, log, named, same⟩
  let other : World := { world with tree, log }
  rw [saveLog_eq world, saveLog_eq { world with tree, log }]
  apply World.AlikeButLog.intro { world with tree := world.saveLog.tree } other.saveLog.tree log
  · exact distinct_saveLog same.distinct
  intro place elsewhere
  have notLog : ¬ world.IsLogFile place := by
    rintro ⟨path, logged, isPlace⟩
    exact elsewhere ⟨path, logged, isPlace.trans (location_congr (workingDirectory_saveLog world) path).symm⟩
  have notOtherLog : ¬ other.IsLogFile place := by
    rintro ⟨path, logged, isPlace⟩
    exact notLog ⟨path, logged, isPlace.trans (location_congr same.workingDirectory path)⟩
  calc other.saveLog.tree.entryAt? place
      _ = tree.entryAt? place := entryAt?_saveLog (same.named named) notOtherLog
      _ = world.tree.entryAt? place := same.entryAt? place
      _ = world.saveLog.tree.entryAt? place := (entryAt?_saveLog named notLog).symm

theorem alikeButLog_close (alike : world.Alike other) : world.close.AlikeButLog other.close := by
  have ignores : IgnoresFiles fun world => { world with channel := world.channel.close, log := world.log.close } :=
    fun _ => ⟨rfl, fun _ log => ⟨log.close, rfl⟩⟩
  exact alikeButLog_saveLog (ignores.alike alike)

namespace FileSystem

/-- What passes after the end keeps worlds alike but for the log. -/
theorem exists_passes_alikeButLog (alike : world.AlikeButLog other) (passes : system.Passes world after) :
    ∃ ended, Relation.ReflTransGen another.Passes other ended ∧ after.AlikeButLog ended := by
  rcases alike with ⟨tree, log, distinct, entries⟩
  cases passes with
  | relists =>
      have listed := system.same world.tree distinct
      refine ⟨_, .refl, .intro { world with tree := system.relist world.tree } tree log listed.distinct_right ?_⟩
      intro place elsewhere
      rw [listed.entryAt?]
      apply entries
      rintro ⟨path, logged, isPlace⟩
      exact elsewhere ⟨path, logged, isPlace.trans (location_congr listed.workingDirectory path).symm⟩
  | interferes interferes =>
      cases interferes with
      | cancel addon =>
          exact ⟨_, .single (.interferes (.cancel _ addon)),
            .intro (world.updateProgress addon Progress.cancel) tree log distinct entries⟩
      | deliver =>
          exact ⟨_, .single (.interferes (.deliver _)),
            .intro { world with channel := world.channel.deliverNext } tree log distinct entries⟩

/-- The end of a run can be repeated on another file system. -/
theorem exists_close (alike : world.Alike other)
    (execution : system.Executes (Activity.modify World.close) world moves after result) :
    ∃ answers ended, another.Executes (Activity.modify World.close) other answers ended result ∧
      after.AlikeButLog ended := by
  rcases executes_modify_iff.1 execution.1 with ⟨closing, rfl, rfl, gap, rest⟩
  have matched : ∀ a a' b : World, a.Alike b → system.Passes a a' →
      ∃ b', Relation.ReflTransGen another.Passes b b' ∧ a'.Alike b' := fun _ _ _ => exists_passes
  have matchedButLog : ∀ a a' b : World, a.AlikeButLog b → system.Passes a a' →
      ∃ b', Relation.ReflTransGen another.Passes b b' ∧ a'.AlikeButLog b' := fun _ _ _ => exists_passes_alikeButLog
  rcases exists_gap matched alike gap with ⟨waiting, toWait, alike⟩
  rcases exists_relisted alike with ⟨found, toFind, alike, listed⟩
  rcases exists_gap matchedButLog (alikeButLog_close alike) rest with ⟨ended, toEnd, alike⟩
  exact ⟨[(found, found.close)], ended,
    ⟨executes_modify_iff.2 ⟨found, rfl, rfl, toWait.trans toFind, toEnd⟩, List.forall_mem_singleton.2 listed⟩, alike⟩

end FileSystem

/-- Whether two worlds show the same outcome of a run: the same addons in the same order, with the same progress, the
same lists published and announced, the same events reported, the same counted, and the same files left, but for the
file of the log. -/
structure SameOutcome (after ended : World) : Prop where
  handles : ended.handles = after.handles
  progress : ended.progress = after.progress
  catalog : ended.catalog = after.catalog
  channel : ended.channel = after.channel
  tally : ended.tally = after.tally
  files : ∀ place, ¬ after.IsLogFile place → ended.tree.entryAt? place = after.tree.entryAt? place

theorem World.AlikeButLog.sameOutcome (alike : after.AlikeButLog ended) : SameOutcome after ended := by
  rcases alike with ⟨tree, log, distinct, entries⟩
  exact ⟨rfl, rfl, rfl, rfl, rfl, entries⟩

/-- Whatever a run does on one file system it can do with the same outcome on another one that holds the same entries,
if no addon has several directories that may hold its archives. -/
theorem exists_sameOutcome_of_run (steady : environment.Steady) (distinct : world.tree.Distinct)
    (named : world.tree.Named) (system another : FileSystem)
    (execution : system.Executes (run environment selection logPath) world moves after result)
    (one : HasOneContainerEach moves) :
    ∃ answers ended, another.Executes (run environment selection logPath) world answers ended result ∧
      SameOutcome after ended := by
  have alike : world.Alike world := .intro world world.tree world.log named (.refl distinct)
  have repeats : ∃ answers ended, another.Executes (run environment selection logPath) world answers ended result ∧
      after.AlikeButLog ended := by
    apply FileSystem.exists_bind execution fun _ => World.Alike.alikeButLog
    · rintro before rest middle found rfl conducts
      exact exists_conduct another steady alike conducts fun move member =>
        one move (List.mem_append_left _ member)
    · exact fun _ _ _ _ _ _ _ reached closes => FileSystem.exists_close reached closes
  rcases repeats with ⟨answers, ended, executes, alike⟩
  exact ⟨answers, ended, executes, alike.sameOutcome⟩

/-! ## Listing in the order of creation, and in the reverse order -/

/-- Tools that are made of operations on files do the same in any order of listing. -/
theorem isSteady_of_orderly {operation : FileOp α} (orderly : Orderly operation)
    (reply : Except FileError α → ToolReply) :
    IsSteady fun tree => { tree := (operation.run tree).1, reply := reply (operation.run tree).2 } := by
  intro first second same named
  rcases orderly.agrees first second same with ⟨result, left⟩
  exact ⟨congrArg reply result, rfl, left, orderly.named first named⟩

/-- A file system that lists entries in the order of their creation. -/
def creationOrder : FileSystem := ⟨id, fun _ => .refl⟩

/-- A file system that lists the newest entry first. -/
def newestFirst : FileSystem where
  relist tree := { tree with entries := tree.entries.reverse }
  same _ distinct := .of_perm distinct rfl (List.reverse_perm _).symm

/-- Extraction that copies the archive to a text config. -/
def copyOut (archive directory : Path) : FileOp Unit := do
  makeDirectories directory
  copyFile archive (directory.join Reference.textConfigName)

/-- Tools that extract a text config from each archive. -/
def copyingTools : ArchiveTools where
  check tree := { tree, reply := .outcome .success }
  extract archive directory _ tree :=
    { tree := ((copyOut archive directory).run tree).1, reply := .outcome .success }
  convert _ _ _ tree := { tree, reply := .outcome .success }

theorem steady_copyingTools : Environment.Steady { tools := copyingTools } where
  check _ _ same named := ⟨rfl, rfl, same, named⟩
  extract _ _ _ := isSteady_of_orderly
    ((orderly_makeDirectories _).bind fun _ => orderly_copyFile _ _) fun _ => .outcome .success
  convert _ _ _ _ _ same named := ⟨rfl, rfl, same, named⟩
  reader _ _ _ _ same := plainReader_eq same _ _

/-- A run with these tools. -/
def copyingRun : Run Unit :=
  run { tools := copyingTools }
    { roots := ["mods"], referenceDirectory := "ref", denied := [], allowed := [] } none

/-- An addon with an archive in each of the given directories, named after it. -/
def addonWith (containers : List Text) : World where
  tree :=
    { entries := (["mods"], .directory) :: (["mods", "@A"], .directory) :: containers.flatMap fun container =>
        let archive : Text := container ++ ".pbo".toList
        [(["mods", "@A", container], .directory),
          (["mods", "@A", container, archive], .file ByteArray.empty false)] }

instance (tree : FileTree) (addon : Path) : Decidable (HasOneContainer tree addon) :=
  match listed : tree.list addon with
  | .error _ => isTrue fun _ same => by
      rw [listed] at same
      cases same
  | .ok children =>
      decidable_of_iff (∀ a ∈ children, ∀ b ∈ children, isContainer a = true → isContainer b = true → a.1 = b.1)
        ⟨fun one _ same => Except.ok.inj (listed.symm.trans same) ▸ one, fun one => one children listed⟩

instance (moves : List (Move World)) : Decidable (HasOneContainerEach moves) :=
  inferInstanceAs (Decidable (∀ move ∈ moves, _))

/-- A run executes as it runs on a file system that lists entries in the order of their creation. -/
theorem executes_creationOrder (activity : Run α) (world : World) :
    creationOrder.Executes activity world (activity.trail world) (activity.run world).1 (activity.run world).2 :=
  ⟨executes_trail activity world, fun move _ => ⟨move.1.tree, rfl⟩⟩

theorem exists_sameOutcome_of_copyingRun :
    let world := addonWith ["addons".toList]
    let after := (copyingRun.run world).1
    Environment.Steady { tools := copyingTools } ∧ world.tree.Distinct ∧ world.tree.Named ∧
      creationOrder.Executes copyingRun world (copyingRun.trail world) after (some ()) ∧
      HasOneContainerEach (copyingRun.trail world) ∧
      publishedPaths after = [[⟨"ref/_addonIndexerTemp/@A/addons/config.cpp".toList⟩]] ∧
      ∃ answers ended, newestFirst.Executes copyingRun world answers ended (some ()) ∧ SameOutcome after ended := by
  intro world after
  have distinct : world.tree.Distinct := by decide +kernel
  have named : world.tree.Named := ⟨by decide +kernel, by decide +kernel⟩
  have ends : (copyingRun.run world).2 = some () := by decide +kernel
  have execution : creationOrder.Executes copyingRun world (copyingRun.trail world) after (some ()) :=
    ends ▸ executes_creationOrder copyingRun world
  have one : HasOneContainerEach (copyingRun.trail world) := by decide +kernel
  exact ⟨steady_copyingTools, distinct, named, execution, one, by decide +kernel,
    exists_sameOutcome_of_run steady_copyingTools distinct named creationOrder newestFirst execution one⟩

/-- Of several directories that may hold archives, the one that is listed first is taken. -/
theorem published_archives_depend_on_listing :
    let world := addonWith ["addons".toList, "Addons".toList]
    publishedPaths (copyingRun.run world).1 = [[⟨"ref/_addonIndexerTemp/@A/addons/config.cpp".toList⟩]] ∧
      publishedPaths (copyingRun.run { world with tree := newestFirst.relist world.tree }).1 =
        [[⟨"ref/_addonIndexerTemp/@A/Addons/config.cpp".toList⟩]] := by
  decide +kernel

end Indexing

end AddonIndex
