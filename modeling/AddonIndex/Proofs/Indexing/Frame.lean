import AddonIndex.Proofs.Indexing.Agreement
import AddonIndex.Proofs.Indexing.Estate
import AddonIndex.Proofs.Indexing.Residue

/-!
# What a run changes

A run changes no place but those it owns: the file of its log, its directory for extracted archives, and the entries of
addons that were missing or not valid at the turn of the addon. An addon whose entry is valid at its turn is read from
there, and no tool is called for it. On the way to the reference root directories may be made.
-/

namespace AddonIndex.Indexing

open Activity FileTree FileOp ReferenceCache

variable {base : FileTree} {root : Path} {logPath tempRoot : Option Path} {isEntry : Text → Prop} {name : Text}
  {work : AddonWork} {temp : Path} {world first begun ended : World} {moves earlier later during : List (Move World)}
  {environment : Environment} {selection : Selection} {addon : Handle} {addons : List Handle}

/-! ## Turns -/

/-- Whether some moves of a run, from a given world on, are the turn of an addon. -/
inductive IsTurn (work : AddonWork) (temp : Path) (world : World) (moves : List (Move World)) (begun : World)
    (during : List (Move World)) : Prop
  | intro {before later : List (Move World)} {ended : World} {answer : Option (Except RunFailure Unit)}
      (split : moves = before ++ (during ++ later)) (chain : Chain Interference world before begun)
      (turn : Executes Interference (indexAddon work temp) begun during ended answer) :
      IsTurn work temp world moves begun during

theorem IsTurn.later_of_chain (isTurn : IsTurn work temp world moves begun during)
    (chain : Chain Interference first earlier world) : IsTurn work temp first (earlier ++ moves) begun during := by
  rcases isTurn with ⟨rfl, reached, turn⟩
  exact .intro (List.append_assoc _ _ _).symm (chain_append_iff.2 ⟨world, chain, reached⟩) turn

theorem IsTurn.append (isTurn : IsTurn work temp world moves begun during) :
    IsTurn work temp world (moves ++ later) begun during := by
  rcases isTurn with @⟨before, rest, _, _, rfl, reached, turn⟩
  apply IsTurn.intro _ reached turn
  · exact rest ++ later
  · simp only [List.append_assoc]

/-! ## The turn of an addon with a valid entry -/

/-- Whatever is done first, it is enough to compare what follows in the worlds that this may lead to. -/
theorem executes_bind_of_keeps {α β : Type} {inv : World → Prop} {kind : α → Prop} {first : Run α}
    {next other : α → Run β} {result : Option β} (about : IsAboutPlaces inv) (keeps : Keeps inv first kind)
    (begins : inv world)
    (same : ∀ middle rest answer, inv middle → Executes Interference (next answer) middle rest ended result →
      Executes Interference (other answer) middle rest ended result)
    (execution : Executes Interference (first >>= next) world moves ended result) :
    Executes Interference (first >>= other) world moves ended result := by
  rcases executes_bind_cases execution with ⟨before, rest, middle, answer, rfl, done, goesOn⟩ | ⟨aborted, rfl⟩
  · have reached := (about.reached keeps done begins).2.1
    exact done.bind (same middle rest answer reached goesOn)
  · exact ⟨traces_bind_iff.2 (.inr ⟨aborted.1, rfl⟩), aborted.2⟩

theorem isAboutPlaces_tree (tree : FileTree) : IsAboutPlaces fun world => world.tree = tree :=
  fun _ _ same there => same.tree.trans there

namespace AddonWork

/-- How each turn begins. -/
def begin (work : AddonWork) : Run Unit := do
  submit (.addonStarted work.addon)
  note ("INDEX STARTED for addon ".toList ++ work.addon.name)
  Activity.modify fun world => { world with extracted := [] }

/-- The turn of an addon that is read from its entry. -/
def reread (work : AddonWork) (temp : Path) : Run (Except RunFailure Unit) := do
  work.begin
  let _ ← work.readFromCache
  work.cleanup temp
  finishAddon work.addon (.ok .completed)

theorem upholds_begin {rely : World → Prop} {guarantee : World → World → Prop}
    (allows : AllowsSamePlaces rely guarantee)
    (empties : ∀ world, rely world → guarantee world { world with extracted := [] }) :
    Upholds rely guarantee work.begin fun _ => True :=
  (upholds_submit allows _).bind fun _ _ => (upholds_note allows _).bind fun _ _ => upholds_modify empties

/-- An addon whose entry is valid is read from there. -/
theorem isRead_of_valid {isRead : Bool} (valid : work.cache.state work.addon.name world.tree = .valid)
    (execution : Executes Interference work.readFromCache world moves ended (some isRead)) : isRead = true := by
  rcases executes_inspect_bind_iff.1 execution with ⟨seen, rest, rfl, gap, execution⟩
  rw [← (SameFiles.of_gap gap).tree] at valid
  simp only [valid] at execution
  rcases execution.bind_some with ⟨_, _, _, _, -, -, execution⟩
  rcases execution.bind_some with ⟨_, _, _, _, -, -, execution⟩
  rcases execution.bind_some with ⟨_, _, _, _, -, -, execution⟩
  rcases execution.bind_some with ⟨_, _, _, _, -, -, execution⟩
  rcases execution.bind_some with ⟨_, _, _, _, -, -, execution⟩
  cases (executes_pure_iff.1 execution).2.1
  rfl

/-- Where the entry is valid it does not matter what would be done otherwise. -/
theorem executes_readFromCache_bind {α : Type} {next other : Bool → Run α} {result : Option α}
    (valid : work.cache.state work.addon.name world.tree = .valid) (same : next true = other true)
    (execution : Executes Interference (work.readFromCache >>= next) world moves ended result) :
    Executes Interference (work.readFromCache >>= other) world moves ended result := by
  rcases executes_bind_cases execution with ⟨reading, rest, read, isRead, rfl, reads, goesOn⟩ | ⟨aborted, rfl⟩
  · cases isRead_of_valid valid reads
    rw [same] at goesOn
    exact reads.bind goesOn
  · exact ⟨traces_bind_iff.2 (.inr ⟨aborted.1, rfl⟩), aborted.2⟩

/-- The turn of an addon whose entry is valid consists in reading it from there. -/
theorem executes_indexAddon_iff {result : Option (Except RunFailure Unit)}
    (valid : work.cache.state work.addon.name world.tree = .valid) :
    Executes Interference (indexAddon work temp) world moves ended result ↔
      Executes Interference (work.reread temp) world moves ended result := by
  have readOrIndex : indexAddon work temp = work.begin >>= fun _ => work.readFromCache >>= fun isRead =>
      (if isRead then pure (.ok .completed) else work.index temp) >>= fun result =>
        work.cleanup temp >>= fun _ => finishAddon work.addon result := by
    unfold indexAddon AddonWork.readOrIndex begin
    simp only [bind_assoc]
  have about := isAboutPlaces_tree world.tree
  have begins := @upholds_begin work _ _ about.allows fun _ => id
  rw [readOrIndex]
  constructor
  · apply executes_bind_of_keeps about begins rfl
    intro middle rest _ sameTree
    exact executes_readFromCache_bind (sameTree ▸ valid) rfl
  · apply executes_bind_of_keeps about begins rfl
    intro middle rest _ sameTree
    exact executes_readFromCache_bind (sameTree ▸ valid) rfl

theorem cleanup_withTools (tools : ArchiveTools) : (work.withTools tools).cleanup temp = work.cleanup temp := by
  have deleteEach : (work.withTools tools).deleteEach = work.deleteEach := by
    funext directories
    induction directories with
    | nil => rfl
    | cons directory rest ih =>
        unfold AddonWork.deleteEach
        rw [ih]
        rfl
  unfold cleanup
  rw [deleteEach]
  rfl

/-- An addon is read from its entry whatever the tools are. -/
theorem reread_withTools (tools : ArchiveTools) : (work.withTools tools).reread temp = work.reread temp := by
  unfold reread
  rw [readFromCache_withTools, cleanup_withTools]
  rfl

end AddonWork

/-- No tool is called in the turn of an addon whose entry is valid: the turn is the same with any other tools. -/
theorem IsTurn.withTools (isTurn : IsTurn work temp world moves begun during)
    (valid : work.cache.state work.addon.name begun.tree = .valid) (tools : ArchiveTools) :
    IsTurn (work.withTools tools) temp world moves begun during := by
  rcases isTurn with ⟨split, chain, turn⟩
  apply IsTurn.intro split chain
  have valid' : (work.withTools tools).cache.state (work.withTools tools).addon.name begun.tree = .valid := valid
  rw [AddonWork.executes_indexAddon_iff valid']
  rw [AddonWork.reread_withTools]
  exact (AddonWork.executes_indexAddon_iff valid).1 turn

/-! ## What the turns of addons change -/

/-- The turn of an addon that is read from its entry changes nothing outside the directory for extracted archives. -/
theorem administers_reread (isAddon : Path.IsName work.addon.name) :
    Upholds (Oversees base (some temp)) (Administers root (some temp) isEntry) (work.reread temp) fun _ => True := by
  have allows := @allowsSamePlaces_administers base root (some temp) isEntry
  apply (AddonWork.upholds_begin allows fun _ => Oversees.empty).bind
  intro _ _
  apply (AddonWork.upholds_readFromCache allows).bind
  intro _ _
  apply Upholds.bind
  · apply AddonWork.upholds_cleanup allows
    · exact fun world listing directory oversees listed noted => oversees.removeTree listed noted
    · exact fun world oversees => oversees.removeDirectory isAddon
  · exact fun _ _ => AddonWork.upholds_finishAddon allows _

/-- The turn of an addon stays within what the run owns, if it owns the entry in case that this is not valid. -/
theorem contained_of_indexAddon {result : Option (Except RunFailure Unit)}
    (discreet : Discreet environment.tools ⟨['/']⟩) (isName : Path.IsName name) (isAddon : Path.IsName addon.name)
    (owned : state ⟨root⟩ addon.name world.tree ≠ .valid → isEntry addon.name)
    (execution : Executes Interference (indexAddon { environment, cache := ⟨root⟩, addon } (root.join name)) world moves
      ended result) (contained : Contained base root logPath (some (root.join name)) isEntry world) :
    Contained base root logPath (some (root.join name)) isEntry ended := by
  have about := @isAboutPlaces_contained base root logPath (some (root.join name)) isEntry
  by_cases valid : state ⟨root⟩ addon.name world.tree = .valid
  · have turn := (@AddonWork.executes_indexAddon_iff { environment, cache := ⟨root⟩, addon } _ _ _ _ _ valid).1 execution
    have rereads := @administers_reread base root isEntry { environment, cache := ⟨root⟩, addon } (root.join name) isAddon
    exact (about.reached (keeps_contained rereads) turn contained).2.1
  · have withstands := @withstands_administers base root name isEntry environment addon discreet isName isAddon
      (owned valid)
    have indexes := withstands.upholds_indexAddon fun _ => Oversees.empty
    exact (about.reached (keeps_contained indexes) execution contained).2.1

/-- So do the turns of all addons. -/
theorem contained_of_indexEach {result : Option (Except RunFailure Unit)}
    (discreet : Discreet environment.tools ⟨['/']⟩) (isName : Path.IsName name)
    (areAddons : ∀ addon ∈ addons, Path.IsName addon.name)
    (owned : ∀ addon ∈ addons, ∀ begun during,
      IsTurn { environment, cache := ⟨root⟩, addon } (root.join name) world moves begun during →
        state ⟨root⟩ addon.name begun.tree ≠ .valid → isEntry addon.name)
    (execution : Executes Interference (indexEach environment ⟨root⟩ (root.join name) addons) world moves ended result)
    (contained : Contained base root logPath (some (root.join name)) isEntry world) :
    Contained base root logPath (some (root.join name)) isEntry ended := by
  have about := @isAboutPlaces_contained base root logPath (some (root.join name)) isEntry
  induction addons generalizing world moves with
  | nil => exact about.gap (executes_pure_iff.1 execution).2.2 contained
  | cons addon rest ih =>
      rcases List.forall_mem_cons.1 areAddons with ⟨isAddon, areAddons⟩
      rcases List.forall_mem_cons.1 owned with ⟨ownedFirst, owned⟩
      rcases executes_inspect_bind_iff.1 execution with ⟨seen, moves, rfl, gap, execution⟩
      have seenContained := about.gap gap contained
      have toSeen : Chain Interference world [(seen, seen)] seen := ⟨gap, .refl⟩
      split at execution
      · apply ih areAddons _ execution seenContained
        exact fun other isOther begun during isTurn => owned other isOther begun during (isTurn.later_of_chain toSeen)
      rcases executes_bind_cases execution with ⟨turn, moves, turned, answer, rfl, turns, execution⟩ | ⟨aborted, -⟩
      · have isTurn := @IsTurn.intro _ _ _ (turn ++ moves) _ turn [] moves _ _ rfl .refl turns
        have turnedContained := contained_of_indexAddon discreet isName isAddon
          (ownedFirst seen turn (isTurn.later_of_chain toSeen)) turns seenContained
        cases answer with
        | error failure => exact about.gap (executes_pure_iff.1 execution).2.2 turnedContained
        | ok _ =>
            apply ih areAddons _ execution turnedContained
            intro other isOther begun during isTurn
            apply owned other isOther begun during
            exact (isTurn.later_of_chain turns.2).later_of_chain toSeen
      · have isTurn := @IsTurn.intro _ _ _ moves _ moves [] [] _ _ (List.append_nil _).symm .refl aborted
        exact contained_of_indexAddon discreet isName isAddon (ownedFirst seen moves (isTurn.later_of_chain toSeen))
          aborted seenContained

/-! ## Before there is a directory for extracted archives -/

/-- Whether whatever is in a tree is still there later. -/
def Persists (before after : FileTree) : Prop :=
  ∀ place, (before.entryAt? place).isSome → (after.entryAt? place).isSome

theorem Persists.refl (tree : FileTree) : Persists tree tree :=
  fun _ => id

theorem Persists.trans {before middle after : FileTree} (first : Persists before middle)
    (second : Persists middle after) : Persists before after :=
  fun place there => second place (first place there)

theorem persists_makeDirectory (path : Path) : Leads Persists (makeDirectory path) := by
  intro tree place there
  rcases Option.isSome_iff_exists.1 there with ⟨entry, there⟩
  exact Option.isSome_of_eq_some ((grows_makeDirectory path tree).entryAt?_of_some there)

theorem persists_makeDirectories (path : Path) : Leads Persists (makeDirectories path) :=
  Leads.makeDirectoriesAlong Persists.refl (fun _ _ _ => Persists.trans) fun above _ => persists_makeDirectory above

theorem persists_writeBytes (path : Path) (content : ByteArray) : Leads Persists (writeBytes path content) := by
  intro tree
  rw [writeBytes_eq]
  cases canWrite : writable path tree with
  | error e => exact Persists.refl tree
  | ok found =>
      rcases found with ⟨place, executable⟩
      have below := (location_of_writable canWrite).2.1
      have puts := (@puts_putFile tree place below ByteArray.empty executable).trans
        (puts_putFile below content executable)
      intro other there
      simp only [applyAll_cons, applyAll_nil]
      rw [puts.entryAt?]
      split
      · rfl
      · exact there

/-- Up to then nothing is lost, and only the log and the way to the reference root may have changed. -/
structure Prepared (base : FileTree) (root : Path) (logPath : Option Path) (isEntry : Text → Prop) (world : World) :
    Prop where
  contained : Contained base root logPath none isEntry world
  persists : Persists base world.tree

theorem isAboutPlaces_prepared : IsAboutPlaces (Prepared base root logPath isEntry) := by
  intro world after same prepared
  constructor
  · exact isAboutPlaces_contained world after same prepared.contained
  · exact same.tree ▸ prepared.persists

theorem prepared_of_unstarted (unstarted : Unstarted world) (named : world.tree.Named) :
    Prepared world.tree root logPath isEntry world where
  contained := by
    constructor
    · exact .refl named
    · rw [unstarted.extracted]
      exact List.forall_mem_nil _
    · exact unstarted.tempRoot
    · rw [unstarted.logPath]
      exact nofun
  persists := .refl _

theorem Prepared.run {α : Type} {operation : FileOp α} (prepared : Prepared base root logPath isEntry world)
    (staysIn : StaysIn (estate base root logPath none isEntry) operation) (persists : Leads Persists operation) :
    Prepared base root logPath isEntry { world with tree := (operation.run world.tree).1 } :=
  ⟨prepared.contained.run staysIn, prepared.persists.trans (persists world.tree)⟩

/-- Tools that are only checked change nothing. -/
theorem Prepared.check (prepared : Prepared base root logPath isEntry world)
    (discreet : Discreet environment.tools ⟨['/']⟩) :
    Prepared base root logPath isEntry { world with tree := (environment.tools.check world.tree).tree } := by
  have confined := discreet.check world.tree
  have same : ∀ place, (environment.tools.check world.tree).tree.entryAt? place = world.tree.entryAt? place := by
    intro place
    rcases confined.entryAt? place List.nil_prefix with same | ⟨_, ⟨⟩, -⟩
    exact same
  constructor
  · apply prepared.contained.of_tree
    apply prepared.contained.bounds.of_same (confined.named prepared.contained.bounds.named) confined.workingDirectory
    exact fun place => .inl (same place)
  · intro place there
    change ((environment.tools.check world.tree).tree.entryAt? place).isSome
    rw [same]
    exact prepared.persists place there

theorem prepared_openLog : Keeps (Prepared base root logPath isEntry) (openLog logPath) fun _ => True := by
  apply upholds_openLog
  · intro world prepared
    apply prepared.run
    · apply leads_openAt
      · exact fun _ bounds => bounds
      · exact fun path isLog => staysIn_writeBytes (.inl ⟨path, isLog, rfl⟩)
    · exact leads_openAt Persists.refl fun path _ => persists_writeBytes path _
  · intro world log prepared
    have contained := prepared.contained
    refine ⟨⟨contained.bounds, contained.extracted, contained.tempRoot, ?_⟩, prepared.persists⟩
    intro path isPath
    simp only at isPath
    split at isPath
    · exact isPath
    · cases isPath

/-! ## The directory for extracted archives -/

/-- Whether a directory for extracted archives is made where nothing was. -/
def IsNew (base : FileTree) (root temp : Path) : Prop :=
  ∃ count, temp = tempRootCandidate root count ∧ base.entryAt? (base.location temp) = none

theorem isAboutPlaces_samePlaces (world : World) : IsAboutPlaces (SamePlaces world) := by
  rintro middle after ⟨tree, extracted, tempRoot, logPath⟩ ⟨treeBefore, extractedBefore, tempRootBefore, logPathBefore⟩
  exact ⟨tree.trans treeBefore, extracted.trans extractedBefore, tempRoot.trans tempRootBefore,
    logPath.trans logPathBefore⟩

theorem SamePlaces.of_gap (gap : Relation.ReflTransGen Interference world ended) : SamePlaces world ended :=
  (isAboutPlaces_samePlaces world).gap gap ⟨rfl, rfl, rfl, rfl⟩

/-- The directory for extracted archives is made where nothing is, or nothing is done. -/
theorem samePlaces_of_createTempRoot {result : Option (Except RunFailure Path)}
    (execution : Executes Interference (createTempRoot root) world moves ended result) :
    (∃ failure, result = some (.error failure)) ∧ SamePlaces world ended ∨
    ∃ count making, result = some (.ok (tempRootCandidate root count)) ∧ SamePlaces world making ∧
      making.tree.entryAt? (making.tree.location (tempRootCandidate root count)) = none ∧
      SamePlaces { making with tree := ((makeDirectory (tempRootCandidate root count)).run making.tree).1 } ended := by
  rcases executes_inspect_bind_iff.1 execution with ⟨seen, rest, rfl, toSee, execution⟩
  rcases exists_candidate root seen.tree (seen.tree.entries.length + 1) 0 with ⟨count, chosen⟩
  rw [chooseTempRoot, chosen] at execution
  rcases executes_perform_bind_iff.1 execution with ⟨making, rest, rfl, toMake, execution⟩
  have same := SamePlaces.of_gap (toSee.trans toMake)
  rw [FileOp.run_eq] at execution
  rcases makeDirectory_cases (tempRootCandidate root count) making.tree with
    ⟨e, failed⟩ | ⟨parent, name, slash, resolved, nothing, made⟩
  · rw [failed] at execution
    rcases executes_pure_iff.1 execution with ⟨-, rfl, gap⟩
    apply Or.inl
    exact ⟨⟨_, rfl⟩, isAboutPlaces_samePlaces world _ _ (SamePlaces.of_gap gap) same⟩
  · rw [made] at execution
    rcases executes_pure_iff.1 execution with ⟨-, rfl, gap⟩
    apply Or.inr
    refine ⟨count, making, rfl, same, ?_, ?_⟩
    · rwa [location_of_resolve resolved] at nothing
    · rw [FileOp.run_eq, made]
      exact SamePlaces.of_gap gap

/-- Before there is a directory for extracted archives less is owned. -/
theorem Contained.bounds_some (contained : Contained base root logPath none isEntry world) (temp : Path) :
    (estate base root logPath (some temp) isEntry).Bounds world.tree := by
  apply contained.bounds.mono
  rintro place (isLog | ⟨_, ⟨⟩, -⟩ | inEntry)
  · exact .inl isLog
  · exact .inr (.inr inEntry)

/-- Whoever owns the directory for extracted archives may make it. -/
theorem staysIn_makeDirectory_candidate :
    StaysIn (estate base root logPath (some temp) isEntry) (makeDirectory temp) := by
  apply staysIn_makeDirectory
  intro _
  exact .inl (.inr (.inl ⟨temp, rfl, List.prefix_rfl⟩))

theorem administers_gather (outcome : Except RunFailure Unit) :
    Upholds (Oversees base (some temp)) (Administers root (some temp) isEntry) (gather temp addons outcome)
      fun _ => True :=
  upholds_gather allowsSamePlaces_administers outcome fun _ oversees => oversees.deleteTempRoot rfl

/-- Once the directory for extracted archives is made and noted, the run owns it. -/
theorem Contained.set {making setting : World} (contained : Contained base root logPath none isEntry making)
    (made : SamePlaces { making with tree := ((makeDirectory temp).run making.tree).1 } setting) :
    Contained base root logPath (some temp) isEntry { setting with tempRoot := some temp } := by
  constructor
  · rw [show World.tree { setting with tempRoot := _ } = setting.tree from rfl, made.tree]
    exact staysIn_makeDirectory_candidate making.tree (contained.bounds_some _)
  · intro directory noted
    rw [show World.extracted { setting with tempRoot := _ } = setting.extracted from rfl, made.extracted] at noted
    rcases contained.extracted directory noted with ⟨_, ⟨⟩, -⟩
  · rfl
  · intro path isPath
    rw [show World.logPath { setting with tempRoot := _ } = setting.logPath from rfl, made.logPath] at isPath
    exact contained.logPath path isPath

/-- The directory for extracted archives is new if nothing of what was there before is lost until it is made. -/
theorem isNew_of_nothing {count : Nat} (contained : Contained base root logPath none isEntry world)
    (persists : Persists base world.tree)
    (nothing : world.tree.entryAt? (world.tree.location (tempRootCandidate root count)) = none) :
    IsNew base root (tempRootCandidate root count) := by
  refine ⟨count, rfl, ?_⟩
  by_contra there
  have stays := persists _ (Option.isSome_iff_ne_none.2 there)
  rw [← show _ = base.location _ from contained.bounds.location (tempRootCandidate root count), nothing] at stays
  cases stays

/-- The turns of all addons and what is done after them stay within what the run owns. -/
theorem contained_of_turns {result : Option (Except RunFailure (List Addon))}
    (discreet : Discreet environment.tools ⟨['/']⟩) (isName : Path.IsName name)
    (areAddons : ∀ addon ∈ addons, Path.IsName addon.name)
    (owned : ∀ addon ∈ addons, ∀ begun during,
      IsTurn { environment, cache := ⟨root⟩, addon } (root.join name) world moves begun during →
        state ⟨root⟩ addon.name begun.tree ≠ .valid → isEntry addon.name)
    (execution : Executes Interference
      (indexEach environment ⟨root⟩ (root.join name) addons >>= gather (root.join name) addons) world moves ended result)
    (contained : Contained base root logPath (some (root.join name)) isEntry world) :
    Contained base root logPath (some (root.join name)) isEntry ended := by
  rcases executes_bind_cases execution with ⟨turning, later, turned, outcome, rfl, turns, execution⟩ | ⟨aborted, -⟩
  · have turnedContained := by
      apply contained_of_indexEach discreet isName areAddons _ turns contained
      exact fun addon isAddon begun during isTurn => owned addon isAddon begun during isTurn.append
    exact (isAboutPlaces_contained.reached (keeps_contained (administers_gather outcome)) execution turnedContained).2.1
  · exact contained_of_indexEach discreet isName areAddons owned aborted contained

/-- So does everything that is done from the creation of the directory for extracted archives on. -/
theorem contained_of_indexAll {result : Option (Except RunFailure (List Addon))}
    (discreet : Discreet environment.tools ⟨['/']⟩) (areAddons : ∀ addon ∈ addons, Path.IsName addon.name)
    (owned : ∀ addon ∈ addons, ∀ temp begun during,
      IsTurn { environment, cache := ⟨root⟩, addon } temp world moves begun during →
        state ⟨root⟩ addon.name begun.tree ≠ .valid → isEntry addon.name)
    (execution : Executes Interference (indexAll environment root addons) world moves ended result)
    (contained : Contained base root logPath none isEntry world) (persists : Persists base world.tree) :
    ∃ tempRoot, Contained base root logPath tempRoot isEntry ended ∧ ∀ temp ∈ tempRoot, IsNew base root temp := by
  rcases executes_bind_cases execution with ⟨creating, _, created, answer, rfl, creates, execution⟩ | ⟨aborted, -⟩
  · rcases samePlaces_of_createTempRoot creates with ⟨⟨failure, ⟨⟩⟩, same⟩ | ⟨count, making, ⟨⟩, same, nothing, made⟩
    · rcases executes_pure_iff.1 execution with ⟨-, -, gap⟩
      have createdContained := isAboutPlaces_contained _ _ same contained
      exact ⟨none, isAboutPlaces_contained.gap gap createdContained, nofun⟩
    have makingContained := isAboutPlaces_contained _ _ same contained
    have isNew := isNew_of_nothing makingContained (same.tree ▸ persists) nothing
    refine ⟨some (tempRootCandidate root count), ?_, fun _ isTemp => Option.some.inj isTemp ▸ isNew⟩
    rcases executes_modify_bind_iff.1 execution with ⟨setting, _, rfl, toSet, execution⟩
    rcases executes_modify_bind_iff.1 execution with ⟨noting, _, rfl, toNote, execution⟩
    have set := makingContained.set (isAboutPlaces_samePlaces _ _ _ (SamePlaces.of_gap toSet) made)
    apply contained_of_turns discreet (isName_candidate count) areAddons _ execution
    · exact isAboutPlaces_contained noting _ ⟨rfl, rfl, rfl, rfl⟩ (isAboutPlaces_contained.gap toNote set)
    · intro addon isAddon begun during isTurn
      have sinceMade := @IsTurn.later_of_chain _ _ _ created _ _ [(setting, _), (noting, _)] _ isTurn
        ⟨toSet, toNote, .refl⟩
      exact owned addon isAddon _ begun during (sinceMade.later_of_chain creates.2)
  · rcases samePlaces_of_createTempRoot aborted with ⟨⟨failure, ⟨⟩⟩, -⟩ | ⟨count, making, ⟨⟩, -⟩

/-! ## Discovery -/

/-- Whether a directory is one that is discovered among some files. -/
def IsDiscovered (selection : Selection) (tree : FileTree) (directory : Path) : Prop :=
  ∃ name ∈ selection.roots, ∃ children, tree.list ⟨name⟩ = .ok children ∧
    directory ∈ addonsIn selection ⟨name⟩ children

theorem IsDiscovered.wanted {tree : FileTree} {directory : Path} (isDiscovered : IsDiscovered selection tree directory)
    (named : tree.Named) : IsAddonName (addonName directory) ∧ selection.isDenied (addonName directory) = false := by
  rcases isDiscovered with ⟨_, -, children, listed, member⟩
  rcases exists_name_of_mem_addonsIn named listed member with ⟨name, rfl, isAddon, notDenied⟩
  rw [addonName, Path.fileName?_join _ isAddon.isName]
  exact ⟨isAddon, notDenied⟩

/-- As long as the files are the same, everything that is discovered is discovered among them. -/
theorem discovers (tree : FileTree) {roots : List Text} (areRoots : ∀ name ∈ roots, name ∈ selection.roots) :
    Keeps (fun world => world.tree = tree) (discover selection roots) fun directories =>
      ∀ directory ∈ directories, IsDiscovered selection tree directory := by
  have about := isAboutPlaces_tree tree
  induction roots with
  | nil => exact upholds_pure (List.forall_mem_nil _)
  | cons name rest ih =>
      rcases List.forall_mem_cons.1 areRoots with ⟨isRoot, areRoots⟩
      apply upholds_inspect_bind about.allows.rests
      rintro seen rfl
      split
      · exact ih areRoots
      · rename_i children listed
        apply (upholds_note about.allows _).bind
        intro _ _
        apply (upholds_noteAll about.allows _).bind
        intro _ _
        apply (upholds_noteAll about.allows _).bind
        intro _ _
        apply (ih areRoots).bind
        intro others areDiscovered
        apply upholds_pure
        intro directory member
        rcases List.mem_append.1 member with here | later
        · exact ⟨name, isRoot, children, listed, here⟩
        · exact areDiscovered directory later

/-! ## The whole run -/

/-- What is done first keeps an invariant, whether something comes after it or not. -/
theorem IsAboutPlaces.bind_cases {α β : Type} {inv : World → Prop} {kind : α → Prop} {activity : Run α}
    {next : α → Run β} {result : Option β} (about : IsAboutPlaces inv) (keeps : Keeps inv activity kind)
    (execution : Executes Interference (activity >>= next) world moves ended result) (begins : inv world) :
    inv ended ∨ ∃ before later middle answer, moves = before ++ later ∧
      Executes Interference activity world before middle (some answer) ∧ inv middle ∧ kind answer ∧
      Executes Interference (next answer) middle later ended result := by
  rcases executes_bind_cases execution with ⟨before, later, middle, answer, rfl, done, goesOn⟩ | ⟨aborted, -⟩
  · rcases about.reached keeps done begins with ⟨-, reached, kinds⟩
    exact .inr ⟨before, later, middle, answer, rfl, done, reached, kinds answer rfl, goesOn⟩
  · exact .inl (about.reached keeps aborted begins).2.1

/-- Whether an addon was discovered in a run and is not denied. -/
def IsEnrolled (selection : Selection) (moves : List (Move World)) (addon : Handle) : Prop :=
  ∃ move ∈ moves, addon ∈ move.2.handles ∧ IsDiscovered selection move.1.tree addon.directory ∧
    selection.isDenied addon.name = false

theorem IsEnrolled.mono {addon : Handle} {more : List (Move World)} (isEnrolled : IsEnrolled selection moves addon)
    (among : ∀ move ∈ moves, move ∈ more) : IsEnrolled selection more addon := by
  rcases isEnrolled with ⟨move, member, rest⟩
  exact ⟨move, among move member, rest⟩

/-- The work on discovered addons stays within what the run owns. -/
theorem contained_of_enroll {directories : List Path} {result : Option (Except RunFailure (List Addon))}
    (discreet : Discreet environment.tools ⟨['/']⟩)
    (areDiscovered : ∀ directory ∈ directories, IsDiscovered selection world.tree directory)
    (owned : ∀ addon, IsEnrolled selection moves addon → ∀ temp begun during,
      IsTurn { environment, cache := ⟨root⟩, addon } temp world moves begun during →
        state ⟨root⟩ addon.name begun.tree ≠ .valid → isEntry addon.name)
    (execution : Executes Interference (enroll directories >>= fun addons =>
      submit (.started selection addons) >>= fun _ => indexAll environment root addons) world moves ended result)
    (prepared : Prepared base root logPath isEntry world) :
    ∃ tempRoot, Contained base root logPath tempRoot isEntry ended ∧ ∀ temp ∈ tempRoot, IsNew base root temp := by
  have about := @isAboutPlaces_prepared base root logPath isEntry
  rcases executes_act_bind_iff.1 execution with ⟨enrolling, _, rfl, toEnroll, execution⟩
  rcases executes_modify_bind_iff.1 execution with ⟨starting, _, rfl, toStart, execution⟩
  have enrollingPrepared := about.gap toEnroll prepared
  have startingPrepared := about.gap toStart (about enrolling _ ⟨rfl, rfl, rfl, rfl⟩ enrollingPrepared)
  have submitted := fun event => about starting (starting.submit event) ⟨rfl, rfl, rfl, rfl⟩ startingPrepared
  have areEnrolled : ∀ addon ∈ directories.mapIdx fun index directory => ({ index, directory } : Handle),
      IsDiscovered selection enrolling.tree addon.directory ∧ IsAddonName addon.name ∧
        selection.isDenied addon.name = false := by
    intro addon member
    rcases List.mem_mapIdx.1 member with ⟨index, inside, rfl⟩
    have isDiscovered := areDiscovered _ (List.getElem_mem inside)
    rw [← (SamePlaces.of_gap toEnroll).tree] at isDiscovered
    exact ⟨isDiscovered, isDiscovered.wanted enrollingPrepared.contained.bounds.named⟩
  apply contained_of_indexAll discreet _ _ execution (submitted _).contained (submitted _).persists
  · exact fun addon member => (areEnrolled addon member).2.1.isName
  · intro addon member temp begun during isTurn
    rcases areEnrolled addon member with ⟨isDiscovered, -, notDenied⟩
    apply owned addon _ temp begun during
    · exact @IsTurn.later_of_chain _ _ _ world _ _ [(enrolling, _), (starting, _)] _ isTurn ⟨toEnroll, toStart, .refl⟩
    · exact ⟨_, List.mem_cons_self, member, isDiscovered, notDenied⟩

/-- So does the whole way to the list of addons to publish. -/
theorem contained_of_loadAddons {result : Option (Except RunFailure (List Addon))}
    (discreet : Discreet environment.tools ⟨['/']⟩)
    (owned : ∀ addon, IsEnrolled selection moves addon → ∀ temp begun during,
      IsTurn { environment, cache := ⟨selection.referenceRoot⟩, addon } temp world moves begun during →
        state ⟨selection.referenceRoot⟩ addon.name begun.tree ≠ .valid → isEntry addon.name)
    (execution : Executes Interference (loadAddons environment selection) world moves ended result)
    (prepared : Prepared base selection.referenceRoot logPath isEntry world) :
    ∃ tempRoot, Contained base selection.referenceRoot logPath tempRoot isEntry ended ∧
      ∀ temp ∈ tempRoot, IsNew base selection.referenceRoot temp := by
  have about := @isAboutPlaces_prepared base selection.referenceRoot logPath isEntry
  have ends : Prepared base selection.referenceRoot logPath isEntry ended →
      ∃ tempRoot, Contained base selection.referenceRoot logPath tempRoot isEntry ended ∧
        ∀ temp ∈ tempRoot, IsNew base selection.referenceRoot temp :=
    fun prepared => ⟨none, prepared.contained, nofun⟩
  have ensures : Keeps (Prepared base selection.referenceRoot logPath isEntry)
      (ensureReferenceRoot selection.referenceRoot) fun _ => True := by
    apply upholds_ensureReferenceRoot about.allows
    exact fun world prepared => prepared.run staysIn_makeDirectories_root (persists_makeDirectories _)
  rcases about.bind_cases ensures execution prepared with
    early | ⟨_, _, ensured, answer, rfl, ensuring, isEnsured, -, execution⟩
  · exact ends early
  cases answer with
  | error failure => exact ends (about.gap (executes_pure_iff.1 execution).2.2 isEnsured)
  | ok _ =>
  have checks := upholds_callTool about.allows fun world prepared => prepared.check discreet
  rcases about.bind_cases checks execution isEnsured with
    early | ⟨_, _, checked, answer, rfl, checking, isChecked, -, execution⟩
  · exact ends early
  cases answer with
  | error e => exact ends (about.gap (executes_pure_iff.1 execution).2.2 isChecked)
  | ok _ =>
  have finds := @upholds_discover selection _ _ about.allows (fun _ prepared => prepared.contained.bounds.named) selection.roots
  rcases about.bind_cases finds execution isChecked with
    early | ⟨_, _, found, directories, rfl, finding, isFound, -, execution⟩
  · exact ends early
  rcases (isAboutPlaces_tree checked.tree).reached (discovers checked.tree fun _ => id) finding rfl with
    ⟨-, sameFiles, areDiscovered⟩
  apply contained_of_enroll discreet (sameFiles ▸ areDiscovered directories rfl) _ execution isFound
  intro addon isEnrolled temp begun during isTurn
  apply owned addon _ temp begun during
  · exact ((isTurn.later_of_chain finding.2).later_of_chain checking.2).later_of_chain ensuring.2
  · apply isEnrolled.mono
    intro move member
    exact List.mem_append_right _ (List.mem_append_right _ (List.mem_append_right _ member))

/-- Up to its outcome a run changes only what it owns, and its directory for extracted archives is a new one. -/
theorem contained_of_attempt {result : Option (Except RunFailure (List Addon))} (unstarted : Unstarted world)
    (named : world.tree.Named) (discreet : Discreet environment.tools ⟨['/']⟩)
    (owned : ∀ addon, IsEnrolled selection moves addon → ∀ temp begun during,
      IsTurn { environment, cache := ⟨selection.referenceRoot⟩, addon } temp world moves begun during →
        state ⟨selection.referenceRoot⟩ addon.name begun.tree ≠ .valid → isEntry addon.name)
    (execution : Executes Interference (attempt environment selection logPath) world moves ended result) :
    ∃ tempRoot, Contained world.tree selection.referenceRoot logPath tempRoot isEntry ended ∧
      ∀ temp ∈ tempRoot, IsNew world.tree selection.referenceRoot temp := by
  have about := @isAboutPlaces_prepared world.tree selection.referenceRoot logPath isEntry
  rcases about.bind_cases prepared_openLog execution (prepared_of_unstarted unstarted named) with
    early | ⟨_, _, opened, _, rfl, opening, isOpened, -, execution⟩
  · exact ⟨none, early.contained, nofun⟩
  rcases executes_modify_bind_iff.1 execution with ⟨noting, _, rfl, toNote, execution⟩
  have notingPrepared := about.gap toNote isOpened
  apply contained_of_loadAddons discreet _ execution (about noting _ ⟨rfl, rfl, rfl, rfl⟩ notingPrepared)
  intro addon isEnrolled temp begun during isTurn
  have sinceOpened := @IsTurn.later_of_chain _ _ _ opened _ _ [(noting, _)] _ isTurn ⟨toNote, .refl⟩
  apply owned addon _ temp begun during (sinceOpened.later_of_chain opening.2)
  exact isEnrolled.mono fun move member => List.mem_append_right _ (List.mem_cons_of_mem _ member)

theorem Contained.close (contained : Contained base root logPath tempRoot isEntry world) :
    Contained base root logPath tempRoot isEntry world.close := by
  have closed : Contained base root logPath tempRoot isEntry
      { world with channel := world.channel.close, log := world.log.close } :=
    isAboutPlaces_contained world _ ⟨rfl, rfl, rfl, rfl⟩ contained
  unfold World.close World.saveLog
  split
  · exact closed
  · rename_i path isPath
    split
    · exact closed.run (staysIn_writeBytes (.inl ⟨path, contained.logPath path isPath, rfl⟩))
    · exact closed

/-- The end of a run removes only the directory for extracted archives, and writes the log. -/
theorem contained_conclude (outcome : Except RunFailure (List Addon)) :
    Keeps (Contained base root logPath tempRoot isEntry) (settle outcome >>= fun _ => wrapUp) fun _ => True := by
  have about := @isAboutPlaces_contained base root logPath tempRoot isEntry
  apply (upholds_settle about.allows outcome).bind
  intro _ _
  apply upholds_wrapUp about.allows
  · exact fun world seen temp contained isSeen isTempRoot =>
      contained.administer (contained.oversees.deleteTempRoot (isSeen.tempRoot.symm.trans isTempRoot))
  · exact fun world => Contained.close

/-- Whether the entry of an addon may be written in a run: the addon was discovered and is not denied, and at its turn
its entry was missing or not valid. -/
def IsIndexed (environment : Environment) (selection : Selection) (world : World) (moves : List (Move World))
    (addon : Handle) : Prop :=
  IsEnrolled selection moves addon ∧ ∃ temp begun during,
    IsTurn { environment, cache := ⟨selection.referenceRoot⟩, addon } temp world moves begun during ∧
      state ⟨selection.referenceRoot⟩ addon.name begun.tree ≠ .valid

/-- What belongs to a run: its log, a new directory for extracted archives, and the entries of addons that it indexes. -/
inductive BelongsTo (environment : Environment) (selection : Selection) (logPath : Option Path) (world : World)
    (moves : List (Move World)) (tempRoot : Option Path) : Location → Prop
  | log {log : Path} (isLog : log ∈ logPath) :
      BelongsTo environment selection logPath world moves tempRoot (world.tree.location log)
  | tempRoot {temp : Path} {place : Location} (isTempRoot : temp ∈ tempRoot)
      (isNew : IsNew world.tree selection.referenceRoot temp) (within : world.tree.location temp <+: place) :
      BelongsTo environment selection logPath world moves tempRoot place
  | entry {addon : Handle} {place : Location} (isIndexed : IsIndexed environment selection world moves addon)
      (within : world.tree.location (selection.referenceRoot.join addon.name) <+: place) :
      BelongsTo environment selection logPath world moves tempRoot place

/-- What a run leaves as it was. A place that does not belong to the run is as it was before, except for directories that
were missing on the way to the reference root; the same holds if the run is aborted and only the log is closed then.
No tool is called in the turn of an addon whose entry is valid: these moves are a turn of it with any other tools. -/
structure KeepsToItsOwn (environment : Environment) (selection : Selection) (logPath : Option Path) (world : World)
    (moves : List (Move World)) (after : World) : Prop where
  elsewhere : ∀ place, ¬ BelongsTo environment selection logPath world moves after.tempRoot place →
    after.tree.entryAt? place = world.tree.entryAt? place ∨ IsOnWay world.tree selection.referenceRoot place ∧
      world.tree.entryAt? place = none ∧ after.tree.entryAt? place = some .directory
  closed : ∀ place, ¬ BelongsTo environment selection logPath world moves after.tempRoot place →
    after.close.tree.entryAt? place = world.tree.entryAt? place ∨ IsOnWay world.tree selection.referenceRoot place ∧
      world.tree.entryAt? place = none ∧ after.close.tree.entryAt? place = some .directory
  cached : ∀ addon temp begun during,
    IsTurn { environment, cache := ⟨selection.referenceRoot⟩, addon } temp world moves begun during →
      state ⟨selection.referenceRoot⟩ addon.name begun.tree = .valid → ∀ tools,
        IsTurn { environment := { environment with tools }, cache := ⟨selection.referenceRoot⟩, addon } temp world moves
          begun during

/-- Whatever is within the estate of a run belongs to it. -/
theorem elsewhere_of_contained (contained : Contained world.tree selection.referenceRoot logPath tempRoot
      (fun name => ∃ addon, addon.name = name ∧ IsIndexed environment selection world moves addon) ended)
    (areNew : ∀ temp ∈ tempRoot, IsNew world.tree selection.referenceRoot temp) {place : Location}
    (elsewhere : ¬ BelongsTo environment selection logPath world moves tempRoot place) :
    ended.tree.entryAt? place = world.tree.entryAt? place ∨ IsOnWay world.tree selection.referenceRoot place ∧
      world.tree.entryAt? place = none ∧ ended.tree.entryAt? place = some .directory := by
  rcases contained.bounds.entryAt? place with
    same | (⟨log, isLog, rfl⟩ | ⟨temp, isTemp, within⟩ | ⟨_, ⟨addon, rfl, isIndexed⟩, within⟩) | onWay
  · exact .inl same
  · exact absurd (.log isLog) elsewhere
  · exact absurd (.tempRoot isTemp (areNew temp isTemp) within) elsewhere
  · exact absurd (.entry isIndexed within) elsewhere
  · exact .inr onWay

/-- However a run goes, it changes only what it owns. -/
theorem keepsToItsOwn_of_run {result : Option Unit} (unstarted : Unstarted world) (named : world.tree.Named)
    (discreet : Discreet environment.tools ⟨['/']⟩)
    (execution : Executes Interference (run environment selection logPath) world moves ended result) :
    KeepsToItsOwn environment selection logPath world moves ended := by
  have contained : ∃ tempRoot, Contained world.tree selection.referenceRoot logPath tempRoot
      (fun name => ∃ addon, addon.name = name ∧ IsIndexed environment selection world moves addon) ended ∧
        ∀ temp ∈ tempRoot, IsNew world.tree selection.referenceRoot temp := by
    rw [run_eq] at execution
    rcases executes_bind_cases execution with ⟨trying, later, tried, outcome, rfl, tries, execution⟩ | ⟨aborted, -⟩
    · have triedContained := by
        apply contained_of_attempt unstarted named discreet _ tries
        · exact fun name => ∃ addon, addon.name = name ∧ IsIndexed environment selection world (trying ++ later) addon
        · intro addon isEnrolled temp begun during isTurn notValid
          have isEnrolled := isEnrolled.mono fun move member => List.mem_append_left later member
          exact ⟨addon, rfl, isEnrolled, temp, begun, during, isTurn.append, notValid⟩
      rcases triedContained with ⟨tempRoot, triedContained, areNew⟩
      have ends := isAboutPlaces_contained.reached (contained_conclude outcome) execution triedContained
      exact ⟨tempRoot, ends.2.1, areNew⟩
    · apply contained_of_attempt unstarted named discreet _ aborted
      intro addon isEnrolled temp begun during isTurn notValid
      exact ⟨addon, rfl, isEnrolled, temp, begun, during, isTurn, notValid⟩
  rcases contained with ⟨_, contained, areNew⟩
  cases contained.tempRoot
  constructor
  · exact fun place elsewhere => elsewhere_of_contained contained areNew elsewhere
  · exact fun place elsewhere => elsewhere_of_contained contained.close areNew elsewhere
  · exact fun addon temp begun during isTurn valid tools => isTurn.withTools valid tools

/-- A run that makes an entry where none was leaves everything else. -/
theorem keepsToItsOwn_of_litteredRun :
    littered.tree.entryAt? ["ref".toList, "@A".toList] = none ∧
    ((litteredRun.run littered).1.tree.entryAt? ["ref".toList, "@A".toList]).any Entry.isDirectory = true ∧
    ∃ moves, Executes Interference litteredRun littered moves (litteredRun.run littered).1
        (litteredRun.run littered).2 ∧
      KeepsToItsOwn { tools := unpackingTools [(binaryConfigName, [])] "class A {};" } modsOnly
        (some ⟨"run.log".toList⟩) littered moves (litteredRun.run littered).1 := by
  have execution : ∃ moves, Executes Interference litteredRun littered moves (litteredRun.run littered).1
      (litteredRun.run littered).2 := executes_run litteredRun littered
  rcases execution with ⟨moves, execution⟩
  have unstarted : Unstarted littered := ⟨EventChannel.live_new, rfl, rfl, rfl⟩
  constructor
  · rfl
  constructor
  · decide +kernel
  · exact ⟨moves, execution, keepsToItsOwn_of_run unstarted named_littered (discreet_unpackingTools _ _ _) execution⟩

end AddonIndex.Indexing
