import AddonIndex.Proofs.Activity.Resemblance
import AddonIndex.Proofs.ClassConfig.Inclusion
import AddonIndex.Proofs.FileTree.Relisting
import AddonIndex.Proofs.Indexing.Residue

/-!
# Runs on file systems that list in other orders

Directories may list their entries in any order, and in another one at any time. A run sorts what it lists, except where
it looks for the directory with the archives of an addon: there the first one listed counts. As long as no addon has
several of them, whatever a run does on one file system it can do on every other one that holds the same entries: the
same addons are found in the same order, the same is reported, counted and published, and the same files are left. Only
the log tells the order in which addons were left out by name.
-/

namespace AddonIndex

namespace Indexing

open Activity FileTree FileOp

variable {α β γ : Type} {guard : World → Prop} {world after other : World} {first second : FileTree}

/-! ## Worlds that differ in the order of listing -/

/-- Whether two worlds are the same but for the order in which files are listed, and the log. -/
inductive World.Alike : World → World → Prop
  | intro (world : World) (tree : FileTree) (log : RunLog) (named : world.tree.Named)
      (same : world.tree.SameEntries tree) : World.Alike world { world with tree, log }

/-- Whether an activity does the same in worlds that are alike. -/
abbrev Steadfast (guard : World → Prop) (activity : Run α) : Prop :=
  Resembles World.Alike guard Eq activity activity

theorem Steadfast.bind {activity : Run α} {next : α → Run β} (steadfast : Steadfast guard activity)
    (later : ∀ answer, Steadfast guard (next answer)) : Steadfast guard (activity >>= next) := by
  apply Resembles.bind steadfast
  rintro answer _ rfl
  exact later answer

theorem steadfast_pure (answer : α) : Steadfast guard (pure answer : Run α) :=
  resembles_pure rfl

/-- Whether a change leaves the files as they are and depends neither on them nor on the log, which it may change. -/
def IgnoresFiles (change : World → World) : Prop :=
  ∀ world : World, (change world).tree = world.tree ∧
    ∀ tree log, ∃ written, change { world with tree, log } = { change world with tree, log := written }

theorem IgnoresFiles.alike {change : World → World} (ignores : IgnoresFiles change) (alike : world.Alike other) :
    (change world).Alike (change other) := by
  rcases alike with ⟨tree, log, named, same⟩
  rcases ignores world with ⟨keeps, commutes⟩
  rcases commutes tree log with ⟨written, changed⟩
  rw [changed]
  exact .intro _ tree written (keeps.symm ▸ named) (keeps.symm ▸ same)

theorem steadfast_modify {change : World → World} (ignores : IgnoresFiles change) :
    Steadfast guard (Activity.modify change) :=
  resembles_modify fun _ _ => ignores.alike

theorem ignoresFiles_updateProgress (addon : Handle) (change : Progress → Progress) :
    IgnoresFiles (·.updateProgress addon change) :=
  fun _ => ⟨rfl, fun _ log => ⟨log, rfl⟩⟩

theorem cancelNamed_with (world : World) (names : List Text) (tree : FileTree) (log : RunLog) :
    World.cancelNamed { world with tree, log } names = { world.cancelNamed names with tree, log } := by
  unfold World.cancelNamed
  generalize world.handles.filter (fun addon => names.contains addon.name) = addons
  induction addons generalizing world with
  | nil => rfl
  | cons addon addons ih => exact ih (world.updateProgress addon Progress.cancel)

theorem ignoresFiles_cancelNamed (names : List Text) : IgnoresFiles (·.cancelNamed names) := by
  intro world
  constructor
  · exact @holds_cancelNamed world (fun after => after.tree = world.tree) names rfl fun _ _ same => same
  · exact fun tree log => ⟨log, cancelNamed_with world names tree log⟩

/-! ## The steps of a run -/

theorem steadfast_submit (event : Event) : Steadfast guard (submit event) :=
  steadfast_modify fun _ => ⟨rfl, fun _ log => ⟨log, rfl⟩⟩

/-- What is written to the log does not matter. -/
theorem resembles_note (line otherLine : Text) : Resembles World.Alike guard Eq (note line) (note otherLine) := by
  apply resembles_modify
  rintro _ _ ⟨tree, log, named, same⟩
  exact .intro _ tree _ named same

theorem steadfast_note (line : Text) : Steadfast guard (note line) :=
  resembles_note line line

theorem steadfast_message (addon : Handle) (text : Text) : Steadfast guard (message addon text) :=
  (steadfast_note _).bind fun _ => steadfast_submit _

theorem steadfast_warning (addon : Handle) (text : Text) (detail : Option Text) :
    Steadfast guard (warning addon text detail) := by
  apply Steadfast.bind
  · exact steadfast_modify fun _ => ⟨rfl, fun _ log => ⟨log.warn text detail, rfl⟩⟩
  · exact fun _ => steadfast_submit _

theorem steadfast_error (addon : Option Handle) (text : Text) (detail : Option Text) :
    Steadfast guard (error addon text detail) := by
  apply Steadfast.bind
  · exact steadfast_modify fun _ => ⟨rfl, fun _ log => ⟨log.report text detail, rfl⟩⟩
  · exact fun _ => steadfast_submit _

theorem steadfast_updateProgress (addon : Handle) (change : Progress → Progress) :
    Steadfast guard (Activity.modify (·.updateProgress addon change)) :=
  steadfast_modify fun _ => ⟨rfl, fun _ log => ⟨log, rfl⟩⟩

theorem steadfast_count (change : Tally → Tally) : Steadfast guard (count change) :=
  steadfast_modify fun _ => ⟨rfl, fun _ log => ⟨log, rfl⟩⟩

theorem steadfast_beginWork (addon : Handle) (units : Nat) : Steadfast guard (beginWork addon units) :=
  (steadfast_updateProgress _ _).bind fun _ => (steadfast_submit _).bind fun _ => steadfast_submit _

theorem steadfast_unitDone (addon : Handle) : Steadfast guard (unitDone addon) := by
  have advances : Steadfast guard (Activity.act fun world : World =>
      let after := world.updateProgress addon Progress.advance
      ((after.progressOf addon).current, after)) := by
    apply resembles_act
    rintro _ _ ⟨tree, log, named, same⟩ _
    exact ⟨rfl, .intro _ tree log named same⟩
  exact advances.bind fun current => steadfast_submit _

theorem steadfast_withStage {addon : Handle} {stage : Stage} {work : Run α} (steadfast : Steadfast guard work) :
    Steadfast guard (withStage addon stage work) :=
  (steadfast_submit _).bind fun _ => steadfast.bind fun _ => (steadfast_submit _).bind fun _ => steadfast_pure _

/-- What is looked at is the same if it is neither the files nor the log. -/
theorem steadfast_inspect {look : World → α}
    (ignores : ∀ (world : World) tree log, look { world with tree, log } = look world) :
    Steadfast guard (Activity.inspect look) := by
  apply resembles_inspect
  rintro world _ ⟨tree, log, named, same⟩ _
  exact (ignores world tree log).symm

theorem steadfast_isCancelled (addon : Handle) : Steadfast guard (isCancelled addon) :=
  steadfast_inspect fun _ _ _ => rfl

/-- What is seen of the files agrees if it does for all trees with the same entries. -/
theorem resembles_lookAt {agree : α → β → Prop} {look : FileTree → α} {view : FileTree → β}
    (agrees : ∀ world : World, guard world → world.tree.Named → ∀ tree, world.tree.SameEntries tree →
      agree (look world.tree) (view tree)) :
    Resembles World.Alike guard agree (lookAt look) (lookAt view) := by
  apply resembles_inspect
  rintro world _ ⟨tree, log, named, same⟩ guarded
  exact agrees world guarded named tree same

theorem steadfast_lookAt {look : FileTree → α}
    (sees : ∀ first second, first.SameEntries second → first.Named → look second = look first) :
    Steadfast guard (lookAt look) :=
  resembles_lookAt fun _ _ named tree same => (sees _ tree same named).symm

theorem steadfast_perform {operation : FileOp α} (orderly : Orderly operation) :
    Steadfast guard (perform operation) := by
  apply resembles_act
  rintro world _ ⟨tree, log, named, same⟩ _
  rcases orderly.agrees world.tree tree same with ⟨result, same⟩
  exact ⟨result.symm, .intro _ _ log (orderly.named _ named) same⟩

/-- Whether a call of a tool makes the same of trees that hold the same entries, and leaves places made of names. -/
def IsSteady (call : FileTree → ToolEffect) : Prop :=
  ∀ first second, first.SameEntries second → first.Named →
    (call second).reply = (call first).reply ∧ (call second).cancelled = (call first).cancelled ∧
      (call first).tree.SameEntries (call second).tree ∧ (call first).tree.Named

theorem steadfast_callTool {call : FileTree → ToolEffect} (steady : IsSteady call) :
    Steadfast guard (callTool call) := by
  have calls : Steadfast guard (Activity.act fun world : World =>
      let effect := call world.tree
      (effect.reply, ({ world with tree := effect.tree }).cancelNamed effect.cancelled)) := by
    apply resembles_act
    rintro world _ ⟨tree, log, named, same⟩ _
    rcases steady world.tree tree same named with ⟨reply, cancelled, same, named⟩
    constructor
    · exact reply.symm
    · change (World.cancelNamed { world with tree := (call world.tree).tree } (call world.tree).cancelled).Alike
        (World.cancelNamed { world with tree := (call tree).tree, log } (call tree).cancelled)
      rw [cancelled]
      apply (ignoresFiles_cancelNamed _).alike
      exact .intro { world with tree := (call world.tree).tree } (call tree).tree log named same
  apply calls.bind
  rintro (outcome | e | _)
  · exact steadfast_pure _
  · exact steadfast_pure _
  · exact .abort

/-- Whether tools and reader make the same of trees that hold the same entries. -/
structure Environment.Steady (environment : Environment) : Prop where
  check : IsSteady environment.tools.check
  extract : ∀ archive directory limit, IsSteady (environment.tools.extract archive directory limit)
  convert : ∀ binary text limit, IsSteady (environment.tools.convert binary text limit)
  reader : ∀ config includeDirectory first second, first.SameEntries second →
    environment.reader config includeDirectory second = environment.reader config includeDirectory first

theorem sameSources (same : first.SameEntries second) : ClassConfig.SameSources first second where
  isFile := same.isFile
  sourceLines file := by rw [ClassConfig.sourceLines, ClassConfig.sourceLines, same.readText]

/-- A config is read alike in any order of listing. -/
theorem plainReader_eq (same : first.SameEntries second) (config includeDirectory : Path) :
    plainReader config includeDirectory second = plainReader config includeDirectory first := by
  rw [plainReader, plainReader, (sameSources same).readConfig_eq]

/-! ## What a run looks for -/

/-- Whether what a directory lists is a directory that may hold archives. -/
def isContainer (item : Text × Entry) : Bool :=
  item.2.isDirectory && Text.sameIgnoringCase item.1 containerName

/-- Whether an addon has at most one directory that may hold its archives. -/
def HasOneContainer (tree : FileTree) (addon : Path) : Prop :=
  ∀ children, tree.list addon = .ok children →
    ∀ a ∈ children, ∀ b ∈ children, isContainer a = true → isContainer b = true → a.1 = b.1

/-- What is found first is the same in any order if all that could be found is the same. -/
theorem map_find?_of_perm {items others : List α} {wanted : α → Bool} {answer : α → β} (perm : items.Perm others)
    (one : ∀ a ∈ items, ∀ b ∈ items, wanted a = true → wanted b = true → answer a = answer b) :
    (others.find? wanted).map answer = (items.find? wanted).map answer := by
  cases found : items.find? wanted with
  | none =>
      have missing : others.find? wanted = none := by
        rw [List.find?_eq_none] at found ⊢
        exact fun item member => found item (perm.mem_iff.2 member)
      rw [missing]
  | some item =>
      have member := List.mem_of_find?_eq_some found
      have isWanted := List.find?_some found
      cases otherFound : others.find? wanted with
      | none => exact absurd isWanted (List.find?_eq_none.1 otherFound item (perm.mem_iff.1 member))
      | some other =>
          have otherMember := perm.mem_iff.2 (List.mem_of_find?_eq_some otherFound)
          exact congrArg some (one other otherMember item member (List.find?_some otherFound) isWanted)

/-- Names right below a path are sorted alike in any order. -/
theorem sort_join_eq {children others : List (Text × Entry)} {wanted : Text × Entry → Bool} (base : Path)
    (perm : children.Perm others) (areNames : ∀ item ∈ children, Path.IsName item.1) :
    Path.sort ((others.filter wanted).map fun item => base.join item.1) =
      Path.sort ((children.filter wanted).map fun item => base.join item.1) := by
  symm
  apply Path.sort_eq_of_perm ((perm.filter wanted).map _)
  intro a aMember b bMember sameParts
  rcases List.mem_map.1 aMember with ⟨item, member, rfl⟩
  rcases List.mem_map.1 bMember with ⟨other, otherMember, rfl⟩
  have last := congrArg List.getLast? sameParts
  rw [Path.getLast?_parts_join base (areNames item (List.mem_filter.1 member).1),
    Path.getLast?_parts_join base (areNames other (List.mem_filter.1 otherMember).1)] at last
  exact congrArg base.join (Path.Part.name.inj (Option.some.inj last))

variable (same : first.SameEntries second) (named : first.Named)

include same named

/-- Where at most one directory can be meant, it is the same in any order. -/
theorem archiveContainer?_eq {addon : Path} (one : HasOneContainer first addon) :
    archiveContainer? addon second = archiveContainer? addon first := by
  have listings := same.list named addon
  unfold HasOneContainer at one
  unfold archiveContainer?
  generalize first.list addon = listed at listings one
  generalize second.list addon = other at listings
  cases listings with
  | failed cause => rfl
  | listed perm _ =>
      apply congrArg Except.ok
      apply map_find?_of_perm perm
      intro a aMember b bMember aWanted bWanted
      exact congrArg addon.join (one _ rfl a aMember b bMember aWanted bWanted)

theorem archives_eq (container : Path) : archives container second = archives container first := by
  have listings := same.list named container
  unfold archives
  generalize first.list container = listed at listings
  generalize second.list container = other at listings
  cases listings with
  | failed cause => rfl
  | listed perm areNames => exact congrArg Except.ok (sort_join_eq container perm areNames)

theorem configFiles_eq (directory : Path) : configFiles directory second = configFiles directory first := by
  have beside : ∀ file : Path,
      (((second.filesBelow directory).filter (isNamed binaryConfigName)).any fun binary =>
        binary.parent? == file.parent?) =
      ((first.filesBelow directory).filter (isNamed binaryConfigName)).any fun binary =>
        binary.parent? == file.parent? :=
    fun file => ((same.filesBelow directory).filter _).any_eq.symm
  unfold configFiles
  simp only [beside]
  rw [same.sort_filter_filesBelow named fun _ => rfl, same.sort_filter_filesBelow named fun _ => rfl]

theorem savePlan_eq (directories : List Path) :
    AddonWork.savePlan directories second = AddonWork.savePlan directories first := by
  unfold AddonWork.savePlan ReferenceCache.referenceFiles
  simp only [same.findFiles named]

omit named in
theorem state_eq (cache : ReferenceCache) (addon : Text) : cache.state addon second = cache.state addon first := by
  simp only [ReferenceCache.state, same.isDirectory, same.readText]

omit named in
theorem measure_eq (path : Path) : measure second path = measure first path := by
  rw [measure, measure, same.size]

end Indexing

end AddonIndex
