import AddonIndex.Proofs.Indexing.Apart
import AddonIndex.Proofs.Indexing.FileSystem
import AddonIndex.Proofs.Indexing.Parallelism

/-!
# Addons are independent of each other

A run takes its addons one after another, and each finds what those before it have left. An addon that is apart from the
others is published with what would be read for it if its turn came first, so from all runs that find the same in its
places it is published alike. Addons of one name are not apart: they share an entry and a directory for extracted
archives, and the second of them is published with what was saved for the first.
-/

namespace AddonIndex.Indexing

open Activity ClassConfig FileTree FileOp Location Reference ReferenceCache

variable {tree first : FileTree} {count : Nat} {work : AddonWork} {among : Handle → Prop}

/-! ## Up to the first turn -/

section Preparation

variable {environment : Environment} {selection : Selection} {logPath : Option Path} {world after : World}
  {moves : List (Move World)}

/-- Whether what a run is given does as it should: the tools are disciplined, checking them changes nothing, and configs
are read the same in whatever order files are listed. -/
structure Environment.Reliable (environment : Environment) : Prop where
  tools : Disciplined environment.tools
  checks : ∀ tree : FileTree, tree.WellFormed → tree.SameEntries (environment.tools.check tree).tree
  reads : ReadsSteadily environment.reader

namespace AddonWork.Apart

variable (apart : work.Apart among tree)

include apart

theorem housed_of_alike (alike : AlikeOn (work.Reserves among tree) tree first) :
    Housed tree.workingDirectory first where
  formed := alike.formed_right
  workingDirectory := alike.workingDirectory
  isHome := by
    rw [alike.entryAt? _ (.inr (.inr rfl))]
    exact apart.founded.isHome

theorem run_alike {α : Type} {operation : FileOp α} {logPath : Option Path}
    (logged : ∀ log ∈ logPath, ¬ work.Reserves among tree (tree.location log))
    (alike : AlikeOn (work.Reserves among tree) tree first)
    (staysIn : StaysIn (estate first work.cache.root logPath none fun _ => False) operation)
    (keepsHouse : KeepsHouse tree.workingDirectory operation) :
    AlikeOn (work.Reserves among tree) tree (operation.run first).1 := by
  apply alikeOn_of_staysIn alike (apart.housed_of_alike alike) staysIn keepsHouse
  · rintro place reserves (⟨log, isLog, rfl⟩ | ⟨_, ⟨⟩, -⟩ | ⟨_, ⟨⟩, -⟩)
    exact logged log isLog reserves
  · exact fun place onWay => isDirectory_of_isOnWay apart.founded.housed apart.founded.rooted onWay

theorem alike_openLog (logged : ∀ log ∈ logPath, ¬ work.Reserves among tree (tree.location log)) :
    Keeps (fun world => AlikeOn (work.Reserves among tree) tree world.tree) (openLog logPath) fun _ => True := by
  apply upholds_openLog
  · intro world alike
    have opens : Leads (fun before after => AlikeOn (work.Reserves among tree) tree before →
        AlikeOn (work.Reserves among tree) tree after) (RunLog.openAt logPath) := by
      apply leads_openAt
      · exact fun _ alike => alike
      · intro path isLog before alike
        apply apart.run_alike logged alike _ (keepsHouse_writeBytes _ _)
        exact staysIn_writeBytes (.inl ⟨path, isLog, rfl⟩)
    exact opens world.tree alike
  · exact fun world log alike => alike

theorem alike_ensureReferenceRoot :
    Keeps (fun world => AlikeOn (work.Reserves among tree) tree world.tree) (ensureReferenceRoot work.cache.root)
      fun _ => True := by
  apply upholds_ensureReferenceRoot isAboutPlaces_alikeOn.allows
  intro world alike
  have noLog : ∀ log ∈ (none : Option Path), ¬ work.Reserves among tree (tree.location log) := nofun
  exact apart.run_alike noLog alike staysIn_makeDirectories_root (keepsHouse_makeDirectories _)

/-- Where the chosen directory for extracted archives can be made there was nothing, and it is found by the first turn. -/
theorem alike_of_makeDirectory {made : FileTree}
    (chosen : chooseTempRoot work.cache.root tree = work.cache.root.join (tempName count))
    (alike : AlikeOn (work.Reserves among tree) tree first)
    (makes : (makeDirectory (work.cache.root.join (tempName count))).run first = (made, .ok ())) :
    tree.entryAt? (tree.location work.cache.root ++ [tempName count]) = none ∧
      AlikeOn (work.Reserves among tree) (firstTurn work.cache.root tree) made := by
  have housed := keepsHouse_makeDirectory (work.cache.root.join (tempName count)) first (apart.housed_of_alike alike)
  rw [FileOp.run_eq] at makes
  rcases makeDirectory_cases (work.cache.root.join (tempName count)) first with
    ⟨e, failed⟩ | ⟨parent, name, slash, resolved, absent, succeeded⟩
  · rw [failed] at makes
    cases makes
  rw [succeeded] at makes housed
  cases makes
  have leads : parent ++ [name] = tree.location work.cache.root ++ [tempName count] := by
    rw [location_of_resolve resolved, location_congr alike.workingDirectory, location_tempRoot]
  rw [leads] at absent
  have reserved : work.Reserves among tree (tree.location work.cache.root ++ [tempName count]) := by
    refine .inl (.inr (.inr ⟨count, .inr (.inl ?_)⟩))
    rw [← location_tempRoot]
    exact within_join tree _ apart.isAddon.isName
  have nothing := (alike.entryAt? _ reserved).symm.trans absent
  refine ⟨nothing, (apart.founded.alike_firstTurn chosen nothing).formed_right, housed.formed, ?_, fun place inside => ?_⟩
  · exact housed.workingDirectory.trans (workingDirectory_apply _).symm
  · change (first.apply (.makeDirectory (parent ++ [name]))).entryAt? place = _
    rw [leads, firstTurn_eq chosen, entryAt?_apply, entryAt?_apply, alike.entryAt? place inside]

/-- The directory for extracted archives is chosen and made as if nothing had been done before. -/
theorem alike_of_createTempRoot {tempRoot : Path} {created : World}
    (execution : Executes Interference (createTempRoot work.cache.root) world moves created (some (.ok tempRoot)))
    (alike : AlikeOn (work.Reserves among tree) tree world.tree) :
    ∃ count, chooseTempRoot work.cache.root tree = work.cache.root.join (tempName count) ∧
      tree.entryAt? (tree.location work.cache.root ++ [tempName count]) = none ∧
      tempRoot = work.cache.root.join (tempName count) ∧
      AlikeOn (work.Reserves among tree) (firstTurn work.cache.root tree) created.tree := by
  rcases executes_inspect_bind_iff.1 execution with ⟨seen, _, rfl, toSee, execution⟩
  rcases executes_perform_bind_iff.1 execution with ⟨making, _, rfl, toMake, execution⟩
  have about := @isAboutPlaces_alikeOn tree (work.Reserves among tree)
  have alikeSeen : AlikeOn (work.Reserves among tree) tree seen.tree := about.gap toSee alike
  have alikeMaking : AlikeOn (work.Reserves among tree) tree making.tree := about.gap toMake alikeSeen
  have same : chooseTempRoot work.cache.root seen.tree = chooseTempRoot work.cache.root tree := by
    apply chooseTempRoot_alike alikeSeen
    intro count passed member
    exact .inl (.inr (.inr ⟨count, .inl (mem_visited_join apart.isAddon.isName member)⟩))
  rcases exists_chooseTempRoot_eq work.cache.root tree with ⟨count, chosen, -, -⟩
  rw [same, chosen, tempRootCandidate_eq] at execution
  cases makes : (makeDirectory (work.cache.root.join (tempName count))).run making.tree with
  | mk made answer =>
  rw [makes] at execution
  cases answer with
  | error cause => cases (executes_pure_iff.1 execution).2.1
  | ok _ =>
  rcases executes_pure_iff.1 execution with ⟨-, answer, gap⟩
  cases answer
  rcases apart.alike_of_makeDirectory chosen alikeMaking makes with ⟨nothing, alikeMade⟩
  exact ⟨count, chosen, nothing, rfl, isAboutPlaces_alikeOn.gap gap alikeMade⟩

end AddonWork.Apart

end Preparation

/-! ## The whole run -/

section Run

variable {environment : Environment} {selection : Selection} {logPath : Option Path} {world after : World}
  {moves : List (Move World)} {addon : Handle} {addons : List Handle} {published : List Addon}

/-- Whether a published addon is a given one, with what would be read for it if its turn came first. -/
def PublishedAlone (environment : Environment) (selection : Selection) (tree : FileTree) (addon : Handle)
    (item : Addon) : Prop :=
  ∃ count progress, chooseTempRoot selection.referenceRoot tree = selection.referenceRoot.join (tempName count) ∧
    tree.entryAt? (tree.location selection.referenceRoot ++ [tempName count]) = none ∧
    item = Addon.ofHandle addon progress ∧
    progress.configs = AddonWork.readings { environment, cache := ⟨selection.referenceRoot⟩, addon } (tempName count)
      (firstTurn selection.referenceRoot tree)

section Turns

variable (reliable : environment.Reliable)
  (isolated : AddonWork.Isolated { environment, cache := ⟨selection.referenceRoot⟩, addon } among logPath tree)

include reliable isolated

/-- All turns over, an addon that is isolated from the others is published with what would be read for it alone. -/
theorem publishedAlone_of_indexAll (enrolled : ∀ other ∈ addons, among other)
    (execution : Executes Interference (indexAll environment selection.referenceRoot addons) world moves after
      (some (.ok published)))
    (live : world.channel.Live) (distinct : addons.Pairwise fun first second => first.index ≠ second.index)
    (unread : ∀ addon ∈ addons, world.configsOf addon = some [])
    (alike : AlikeOn (AddonWork.Reserves { environment, cache := ⟨selection.referenceRoot⟩, addon } among tree) tree
      world.tree) :
    ∀ item ∈ published, item.name = addon.name → PublishedAlone environment selection tree addon item := by
  have apart := isolated.apart
  obtain ⟨creating, _, created, result, rfl, creates, execution⟩ := execution.bind_some
  match result with
  | .error failure => cases (executes_pure_iff.1 execution).2.1
  | .ok tempRoot =>
  obtain ⟨keeping, _, rfl, toKeep, execution⟩ := executes_modify_bind_iff.1 execution
  obtain ⟨noting, _, rfl, toNote, execution⟩ := executes_modify_bind_iff.1 execution
  obtain ⟨indexing, _, indexed, answer, rfl, indexes, execution⟩ := execution.bind_some
  match answer with
  | .error failure => cases (executes_pure_iff.1 execution).2.1
  | .ok () =>
  obtain ⟨deleting, _, deleted, ⟨⟩, rfl, deletes, execution⟩ := execution.bind_some
  obtain ⟨collecting, _, collected, found, rfl, isCollected, execution⟩ := execution.bind_some
  obtain ⟨rfl, same, gap⟩ := executes_pure_iff.1 execution
  cases same
  rcases apart.alike_of_createTempRoot creates alike with ⟨count, chosen, nothing, rfl, alikeCreated⟩
  obtain ⟨looks, collects⟩ := exists_collects (executes_gap_right isCollected gap)
  have createdLive := (works_createTempRoot _).live creates live
  have keepingLive := live_of_interference toKeep createdLive
  have notingLive := live_of_interference toNote keepingLive
  have unreadStill : ∀ addon ∈ addons, noting.configsOf addon = some [] := by
    intro addon member
    calc noting.configsOf addon = keeping.configsOf addon := (configsOf_of_gap toNote :)
      _ = created.configsOf addon := configsOf_of_gap toKeep
      _ = world.configsOf addon := configsOf_of_executes (works_createTempRoot _) creates
      _ = some [] := unread addon member
  have about := @AddonWork.isAboutPlaces_alikeOn (firstTurn selection.referenceRoot tree)
    (AddonWork.Reserves { environment, cache := ⟨selection.referenceRoot⟩, addon } among tree)
  have alikeKeeping := about.gap toKeep alikeCreated
  have alikeNoting := about.gap toNote alikeKeeping
  intro item isPublished sameName
  obtain ⟨look, member, uncancelled, progress, rfl, configs⟩ := collects.exists_look isPublished
  obtain rfl : look.addon = addon := apart.unique look.addon (enrolled look.addon member) sameName
  have uncancelledIndexed : Uncancelled look.addon indexed :=
    uncancelled.of_follows (follows_of_executes (quiet_deleteTempRoot _).follow deletes)
  have indexable := apart.indexable chosen nothing (isolated.unmixed count chosen)
  have read := configsOf_of_indexEach reliable.tools reliable.reads indexable
    (fun other member differs => apart.outOfReach chosen nothing (enrolled other member) differs) indexes notingLive
    distinct unreadStill alikeNoting member uncancelledIndexed
  refine ⟨count, progress, chosen, nothing, rfl, configs _ ?_⟩
  exact (configsOf_of_executes (works_deleteTempRoot _) deletes).trans read

/-- So it is when the addons have been discovered. -/
theorem publishedAlone_of_enroll {directories : List Path}
    (areDiscovered : ∀ directory ∈ directories, IsDiscovered selection world.tree directory)
    (enrolled : ∀ other, IsEnrolled selection moves other → among other)
    (execution : Executes Interference (enroll directories >>= fun addons =>
      submit (.started selection addons) >>= fun _ => indexAll environment selection.referenceRoot addons) world moves
        after (some (.ok published)))
    (live : world.channel.Live)
    (alike : AlikeOn (AddonWork.Reserves { environment, cache := ⟨selection.referenceRoot⟩, addon } among tree) tree
      world.tree) :
    ∀ item ∈ published, item.name = addon.name → PublishedAlone environment selection tree addon item := by
  have about := @AddonWork.isAboutPlaces_alikeOn tree
    (AddonWork.Reserves { environment, cache := ⟨selection.referenceRoot⟩, addon } among tree)
  rcases executes_act_bind_iff.1 execution with ⟨enrolling, _, rfl, toEnroll, execution⟩
  rcases executes_modify_bind_iff.1 execution with ⟨starting, _, rfl, toStart, execution⟩
  have alikeEnrolling := about.gap toEnroll alike
  have alikeStarting := about.gap toStart (about enrolling _ ⟨rfl, rfl, rfl, rfl⟩ alikeEnrolling)
  have enrollingLive := live_of_interference toEnroll live
  have startingLive := live_of_interference toStart enrollingLive
  apply publishedAlone_of_indexAll reliable isolated _ execution (startingLive.submit _) (pairwise_handlesOf directories)
  · exact fun addon member => (configsOf_of_gap toStart).trans (configsOf_enrolled member rfl)
  · exact about starting _ ⟨rfl, rfl, rfl, rfl⟩ alikeStarting
  · intro other member
    apply enrolled other ⟨_, List.mem_cons_self, member, _⟩
    rcases List.mem_mapIdx.1 member with ⟨index, inside, rfl⟩
    have isDiscovered := areDiscovered _ (List.getElem_mem inside)
    rw [← (SamePlaces.of_gap toEnroll).tree] at isDiscovered
    exact ⟨isDiscovered, (isDiscovered.wanted (isolated.apart.housed_of_alike alikeEnrolling).named).2⟩

/-- So it is on the whole way to the list of addons to publish. -/
theorem publishedAlone_of_attempt (enrolled : ∀ other, IsEnrolled selection moves other → among other)
    (execution : Executes Interference (attempt environment selection logPath) world moves after (some (.ok published)))
    (live : world.channel.Live)
    (alike : AlikeOn (AddonWork.Reserves { environment, cache := ⟨selection.referenceRoot⟩, addon } among tree) tree
      world.tree) :
    ∀ item ∈ published, item.name = addon.name → PublishedAlone environment selection tree addon item := by
  have apart := isolated.apart
  have about := @AddonWork.isAboutPlaces_alikeOn tree
    (AddonWork.Reserves { environment, cache := ⟨selection.referenceRoot⟩, addon } among tree)
  obtain ⟨opening, _, opened, ⟨⟩, rfl, opens, execution⟩ := execution.bind_some
  obtain ⟨noting, _, rfl, toNote, execution⟩ := executes_modify_bind_iff.1 execution
  obtain ⟨ensuring, _, ensured, result, rfl, ensures, execution⟩ := execution.bind_some
  match result with
  | .error failure => cases (executes_pure_iff.1 execution).2.1
  | .ok () =>
  obtain ⟨checking, _, checked, result, rfl, checks, execution⟩ := execution.bind_some
  match result with
  | .error e => cases (executes_pure_iff.1 execution).2.1
  | .ok _ =>
  obtain ⟨discovering, later, discovered, directories, rfl, finds, execution⟩ := execution.bind_some
  have openedLive := (follows_of_executes (quiet_openLog logPath).follow opens).live live
  have notingLive := live_of_interference toNote openedLive
  have ensuredLive := (works_ensureReferenceRoot _).live ensures notingLive
  have checkedLive := (works_callTool _).live checks ensuredLive
  have discoveredLive := (works_discover _ _).live finds checkedLive
  have alikeOpened := about.reached (apart.alike_openLog isolated.logged) opens alike
  have alikeNoting := about.gap toNote alikeOpened.2.1
  have alikeEnsured := about.reached apart.alike_ensureReferenceRoot ensures
    (about noting _ ⟨rfl, rfl, rfl, rfl⟩ alikeNoting)
  have isChecked := upholds_callTool about.allows fun world alike =>
    alike.trans (.of_sameEntries (reliable.checks world.tree alike.formed_right) alike.formed_right)
  have alikeChecked := about.reached isChecked checks alikeEnsured.2.1
  have isDiscovered := (isAboutPlaces_tree checked.tree).reached (discovers checked.tree fun _ => id) finds rfl
  rcases isDiscovered with ⟨-, sameFiles, areDiscovered⟩
  apply publishedAlone_of_enroll reliable isolated (sameFiles ▸ areDiscovered directories rfl) _ execution discoveredLive
  · exact sameFiles ▸ alikeChecked.2.1
  · intro other isEnrolled
    apply enrolled other (isEnrolled.mono _)
    intro move member
    simp [member]

end Turns

/-- A run that publishes (the catalog is another one then), over none but some addons. -/
structure PublishesAmong (environment : Environment) (selection : Selection) (logPath : Option Path)
    (among : Handle → Prop) (world after : World) : Prop where
  live : world.channel.Live
  executes : ∃ moves result, Executes Interference (run environment selection logPath) world moves after result ∧
    ∀ addon, IsEnrolled selection moves addon → among addon
  publishes : after.catalog ≠ world.catalog

/-- A run over an addon that is isolated from the others publishes it with what would be read for it alone. -/
theorem publishedAlone_of_run (reliable : environment.Reliable)
    (run : PublishesAmong environment selection logPath among world after)
    (isolated : AddonWork.Isolated { environment, cache := ⟨selection.referenceRoot⟩, addon } among logPath world.tree) :
    ∀ item ∈ after.catalog.addons, item.name = addon.name →
      PublishedAlone environment selection world.tree addon item := by
  rcases run with ⟨live, ⟨moves, result, execution, enrolls⟩, publishes⟩
  obtain ⟨trying, ending, tried, published, rfl, tries, catalog⟩ := exists_attempt_of_run execution publishes
  rw [catalog]
  apply publishedAlone_of_attempt reliable isolated _ tries live (.refl isolated.apart.founded.formed)
  exact fun other isEnrolled => enrolls other (isEnrolled.mono fun move => List.mem_append_left _)

end Run

/-! ## Two runs -/

section TwoRuns

variable {environment : Environment}

namespace AddonWork.Apart

variable {second : FileTree} (apart : work.Apart among tree) (founded : Founded work.cache.root second)
  (alike : AlikeOn (work.Owns tree) tree second)

include apart alike

/-- For trees that are alike on the places of an addon the same name is chosen. -/
theorem chooseTempRoot_eq : chooseTempRoot work.cache.root second = chooseTempRoot work.cache.root tree := by
  apply chooseTempRoot_alike alike
  intro count passed member
  exact .inr (.inr ⟨count, .inl (mem_visited_join apart.isAddon.isName member)⟩)

variable (chosen : chooseTempRoot work.cache.root tree = work.cache.root.join (tempName count))
  (nothing : tree.entryAt? (tree.location work.cache.root ++ [tempName count]) = none)
  (nothingSecond : second.entryAt? (second.location work.cache.root ++ [tempName count]) = none)

include founded chosen nothing nothingSecond

/-- The first turns find files that are alike on the places of an addon. -/
theorem alike_firstTurns :
    AlikeOn (work.Owns tree) (firstTurn work.cache.root tree) (firstTurn work.cache.root second) := by
  have chosenSecond := (apart.chooseTempRoot_eq alike).trans chosen
  have start := location_congr alike.workingDirectory work.cache.root
  have one := apart.founded.alike_firstTurn chosen nothing
  have two := founded.alike_firstTurn chosenSecond nothingSecond
  refine ⟨one.formed_right, two.formed_right, ?_, fun place inside => ?_⟩
  · rw [two.workingDirectory, one.workingDirectory, alike.workingDirectory]
  · rw [firstTurn_eq chosen, firstTurn_eq chosenSecond, start, entryAt?_apply, entryAt?_apply]
    rw [alike.entryAt? place inside]

/-- So the same is read for it. -/
theorem readings_eq (reliable : work.environment.Reliable)
    (unmixed : work.Unmixed (tempName count) (firstTurn work.cache.root tree) (work.Owns tree)) :
    work.readings (tempName count) (firstTurn work.cache.root second) =
      work.readings (tempName count) (firstTurn work.cache.root tree) := by
  have indexable := apart.indexable chosen nothing unmixed
  exact readings_alike reliable.tools (apart.alike_firstTurns founded alike chosen nothing nothingSecond)
    indexable.named apart.isAddon.isName (apart.owned_firstTurn chosen nothing) unmixed.one (fun _ => indexable.stems)
    unmixed.reads

end AddonWork.Apart

/-- From all runs that find the same in the places of an addon, it is published with the same configs and definitions,
if it is isolated from the others. What the others are, what is in their directories and what happens meanwhile is up to
each run. -/
theorem published_of_isolated {selection other : Selection} {logPath otherLog : Option Path} {otherAmong : Handle → Prop}
    {addon twin : Handle} {world after begun ended : World} (reliable : environment.Reliable)
    (runs : PublishesAmong environment selection logPath among world after)
    (runsAgain : PublishesAmong environment other otherLog otherAmong begun ended)
    (isolated : AddonWork.Isolated { environment, cache := ⟨selection.referenceRoot⟩, addon } among logPath world.tree)
    (isolatedAgain : AddonWork.Isolated { environment, cache := ⟨other.referenceRoot⟩, addon := twin } otherAmong
      otherLog begun.tree)
    (sameRoot : other.referenceRoot = selection.referenceRoot) (sameDirectory : twin.directory = addon.directory)
    (alike : AlikeOn (AddonWork.Owns { environment, cache := ⟨selection.referenceRoot⟩, addon } world.tree) world.tree
      begun.tree) :
    ∀ item ∈ after.catalog.addons, ∀ again ∈ ended.catalog.addons, item.name = addon.name → again.name = twin.name →
      again.configs = item.configs ∧ again.definitions = item.definitions := by
  intro item isItem again isAgain name nameAgain
  rcases publishedAlone_of_run reliable runs isolated item isItem name with
    ⟨count, progress, chosen, nothing, rfl, configs⟩
  rcases publishedAlone_of_run reliable runsAgain isolatedAgain again isAgain nameAgain with
    ⟨otherCount, otherProgress, otherChosen, otherNothing, rfl, otherConfigs⟩
  have apart := isolated.apart
  have founded := isolatedAgain.apart.founded
  rw [sameRoot] at otherChosen otherNothing otherConfigs founded
  -- The turn of an addon does not depend on its number.
  obtain ⟨index, directory⟩ := addon
  obtain ⟨otherIndex, otherDirectory⟩ := twin
  cases sameDirectory
  have candidates := otherChosen.symm.trans ((apart.chooseTempRoot_eq alike).trans chosen)
  cases tempRootCandidate_inj candidates
  have read := apart.readings_eq founded alike chosen nothing otherNothing reliable (isolated.unmixed count chosen)
  have same : otherProgress.configs = progress.configs := by
    rw [otherConfigs, configs]
    exact read
  simp only [Addon.ofHandle, same, and_self]

end TwoRuns

/-! ## Neighbours -/

/-- The files before a run: an empty reference root, and two addons with one archive each. The name of the second addon
and that of the archive of the first one are given. -/
def neighbours (name archive : Text) : World where
  tree := { entries := [(["ref".toList], .directory), (["mods".toList], .directory),
    (["mods".toList, "@A".toList], .directory), (["mods".toList, "@A".toList, "addons".toList], .directory),
    (["mods".toList, "@A".toList, "addons".toList, archive], .file ByteArray.empty false),
    (["more".toList], .directory), (["more".toList, name], .directory),
    (["more".toList, name, "addons".toList], .directory),
    (["more".toList, name, "addons".toList, "main.pbo".toList], .file ByteArray.empty false)] }

/-- What a run over them is given: tools that unpack one config. -/
def configEnvironment : Environment := { tools := unpackingTools [(textConfigName, "class A {};".toList)] [] }

theorem reliable_configEnvironment : configEnvironment.Reliable where
  tools := disciplined_unpackingTools _ _
  checks _ formed := .refl formed.distinct
  reads := readsSteadily_plainReader

/-- The world after the run. -/
def afterNeighbours (name archive : Text) : World :=
  ((run configEnvironment twoRoots none).run (neighbours name archive)).1

/-- Addons of one name are not independent: the second one is published with the config that was saved for the first. -/
theorem published_from_namesake :
    (afterNeighbours "@A".toList "first.pbo".toList).catalog.addons.map Addon.directory = ["mods/@A", "more/@A"] ∧
    publishedPaths (afterNeighbours "@A".toList "first.pbo".toList) =
      [[⟨"ref/_addonIndexerTemp/@A/first/config.cpp".toList⟩], [⟨"ref/@A/first/config.cpp".toList⟩]] ∧
    (afterNeighbours "@A".toList "other.pbo".toList).catalog.addons.map Addon.directory = ["mods/@A", "more/@A"] ∧
    publishedPaths (afterNeighbours "@A".toList "other.pbo".toList) =
      [[⟨"ref/_addonIndexerTemp/@A/other/config.cpp".toList⟩], [⟨"ref/@A/other/config.cpp".toList⟩]] := by
  decide +kernel

/-- The addons, if they have different names. -/
def neighbourHandles : List Handle := [⟨0, "mods/@A"⟩, ⟨1, "more/@B"⟩]

/-- The work on the second of them. -/
def secondWork : AddonWork :=
  { environment := configEnvironment, cache := ⟨twoRoots.referenceRoot⟩, addon := ⟨1, "more/@B"⟩ }

/-- Names for the archive of the first one. -/
def archiveNames : List Text := ["first.pbo".toList, "other.pbo".toList]

/-- The files that the turn of the second addon would find if it came first. -/
def secondBase (archive : Text) : FileTree := firstTurn secondWork.cache.root (neighbours "@B".toList archive).tree

/-- The files once its one archive is extracted then. -/
def secondExtracted (archive : Text) : FileTree :=
  (doEach (secondWork.extractionDuty (secondWork.extractedAt (tempName 0))).action
    [⟨"more/@B/addons/main.pbo".toList⟩] (secondBase archive)).1

section Archive

variable {archive : Text} (isArchive : archive ∈ archiveNames)

include isArchive

theorem publishesAmong_neighbours :
    PublishesAmong configEnvironment twoRoots none (· ∈ neighbourHandles) (neighbours "@B".toList archive)
      (afterNeighbours "@B".toList archive) where
  live := EventChannel.live_new
  executes := by
    refine ⟨_, _, executes_trail (run configEnvironment twoRoots none) _, ?_⟩
    have handles : ∀ archive ∈ archiveNames,
        ∀ move ∈ (run configEnvironment twoRoots none).trail (neighbours "@B".toList archive),
          ∀ addon ∈ move.2.handles, addon ∈ neighbourHandles := by decide +kernel
    rintro addon ⟨move, member, inHandles, -⟩
    exact handles archive isArchive move member addon inHandles
  publishes same := by
    have announced : ∀ archive ∈ archiveNames,
        (afterNeighbours "@B".toList archive).catalog.announced = [2] := by decide +kernel
    have isAnnounced := announced archive isArchive
    rw [same] at isAnnounced
    cases isAnnounced

theorem founded_neighbours : Founded secondWork.cache.root (neighbours "@B".toList archive).tree where
  formed := by
    apply wellFormed_of_entries
    all_goals
      revert archive
      decide
  isHome := rfl
  rooted := by
    revert archive
    decide
  way := by
    revert archive
    decide
  home := by
    revert archive
    decide

theorem apart_neighbours : secondWork.Apart (· ∈ neighbourHandles) (neighbours "@B".toList archive).tree where
  founded := founded_neighbours isArchive
  isAddon := ⟨by decide, rfl⟩
  unique := by decide
  areAddons other member := by
    have named : ∀ other ∈ neighbourHandles, Path.IsName other.name ∧ other.name.head? = some '@' := by decide
    exact ⟨(named other member).1, (named other member).2⟩
  inside := by decide
  outside other member place := by
    have leadPast : ∀ archive ∈ archiveNames, ∀ other ∈ neighbourHandles,
        (∀ passed ∈ visited ((neighbours "@B".toList archive).tree.start other.directory) other.directory.written,
          ¬ IsInside (neighbours "@B".toList archive).tree secondWork.cache.root passed) ∧
        ¬ (neighbours "@B".toList archive).tree.location secondWork.cache.root <+:
          (neighbours "@B".toList archive).tree.location other.directory ∧
        ¬ (neighbours "@B".toList archive).tree.location other.directory <+:
          (neighbours "@B".toList archive).tree.location secondWork.cache.root := by decide
    rcases leadPast archive isArchive other member with ⟨passes, below, above⟩
    exact not_isInside_of_isOn passes below above
  stems := by
    intro other _ container files _ areArchives file member
    rcases exists_entry_of_archives areArchives member with ⟨name, rfl, item, isItem, inItem⟩
    have areStems : ∀ archive ∈ archiveNames, ∀ item ∈ (neighbours "@B".toList archive).tree.entries,
        ∀ name ∈ item.1, Path.IsName name ∧ Path.IsName (Path.splitExtension name).1 := by decide
    rcases areStems archive isArchive item isItem name inItem with ⟨isName, isStem⟩
    refine ⟨_, ?_, isStem⟩
    rw [Path.fileStem?, Path.fileName?_join _ isName]
    rfl

theorem listArchives_neighbours :
    secondWork.listArchives (secondBase archive) = .ok (some [⟨"more/@B/addons/main.pbo".toList⟩]) := by
  revert archive
  decide +kernel

/-- There is no binary config in the archive. -/
theorem extractsSingleBinaries_neighbours : secondWork.ExtractsSingleBinaries (tempName 0) (secondBase archive) := by
  intro files areFiles
  cases (listArchives_neighbours isArchive).symm.trans areFiles
  rintro _ _ ⟨⟨stem, names, rfl, isName, member, -, isFile⟩, isBinary⟩
  have isStem : some stem = some "main".toList := by
    rw [← Path.fileName?_join (secondWork.extractedAt (tempName 0)) isName, List.mem_singleton.1 member]
    decide
  cases isStem
  have onlyText : ∀ archive ∈ archiveNames, (secondExtracted archive).filesAt ((secondExtracted archive).location
      (secondWork.extractedAt (tempName 0)) ++ ["main".toList]) = [[textConfigName]] := by decide
  cases List.mem_singleton.1 (onlyText archive isArchive ▸ isFile)
  exact absurd isBinary (by decide)

/-- The one config that is read includes nothing. -/
theorem readsWithin_neighbours : ∀ config ∈ (secondWork.sources (tempName 0) (secondBase archive)).1,
    ReadsWithin configEnvironment.reader (secondWork.Owns (neighbours "@B".toList archive).tree)
      (secondWork.sources (tempName 0) (secondBase archive)).2 config := by
  have sources : (secondWork.sources (tempName 0) (secondBase archive)).1 =
      [⟨"ref/_addonIndexerTemp/@B/main/config.cpp".toList⟩] := by
    revert archive
    decide +kernel
  have covered : ∀ archive ∈ archiveNames,
      ∀ passed ∈ visited ((secondWork.sources (tempName 0) (secondBase archive)).2.start
        ⟨"ref/_addonIndexerTemp/@B/main/config.cpp".toList⟩)
          (Path.written ⟨"ref/_addonIndexerTemp/@B/main/config.cpp".toList⟩),
        (neighbours "@B".toList archive).tree.IsOn (secondWork.extractedAt (tempName 0)) passed := by decide +kernel
  have includesNothing : ∀ archive ∈ archiveNames,
      inclusions (secondWork.sources (tempName 0) (secondBase archive)).2 ⟨"ref/_addonIndexerTemp/@B/main".toList⟩
        maxInclusionDepth ⟨"ref/_addonIndexerTemp/@B/main/config.cpp".toList⟩ {} = [] := by decide +kernel
  intro config isConfig
  rw [sources, List.mem_singleton] at isConfig
  subst isConfig
  apply readsWithin_plainReader
  · exact fun passed member => .inr (.inr ⟨0, covered archive isArchive passed member⟩)
  · intro inclusion isInclusion
    cases includesNothing archive isArchive ▸ isInclusion

theorem unmixed_neighbours :
    secondWork.Unmixed (tempName 0) (secondBase archive) (secondWork.Owns (neighbours "@B".toList archive).tree) where
  one := by
    revert archive
    decide
  nodup files areFiles := by
    cases (listArchives_neighbours isArchive).symm.trans areFiles
    decide
  single := extractsSingleBinaries_neighbours isArchive
  reads := readsWithin_neighbours isArchive

theorem isolated_neighbours : secondWork.Isolated (· ∈ neighbourHandles) none (neighbours "@B".toList archive).tree where
  apart := apart_neighbours isArchive
  unmixed count chosen := by
    have first : ∀ archive ∈ archiveNames, chooseTempRoot secondWork.cache.root (neighbours "@B".toList archive).tree =
        tempRootCandidate secondWork.cache.root 0 := by decide
    cases tempRootCandidate_inj ((first archive isArchive).symm.trans chosen)
    exact unmixed_neighbours isArchive
  logged := nofun

/-- The archives of the first addon are in no place of the second one. -/
theorem not_owns_neighbours {other : Text} (isOther : other ∈ archiveNames) :
    ¬ secondWork.Owns (neighbours "@B".toList archive).tree ["mods".toList, "@A".toList, "addons".toList, other] := by
  intro owns
  have leadPast : ∀ archive ∈ archiveNames, ∀ other ∈ archiveNames,
      ∀ path ∈ [secondWork.addon.directory, secondWork.cache.root],
        ¬ (neighbours "@B".toList archive).tree.IsOn path ["mods".toList, "@A".toList, "addons".toList, other] := by
    decide
  have past := leadPast archive isArchive other isOther
  rcases owns.isOn (by decide) with directory | inRoot
  · exact past _ List.mem_cons_self directory
  · exact past _ (List.mem_cons_of_mem _ List.mem_cons_self) inRoot

/-- The first addon may have another archive. -/
theorem alikeOn_neighbours {other : Text} (isOther : other ∈ archiveNames) :
    AlikeOn (secondWork.Owns (neighbours "@B".toList archive).tree) (neighbours "@B".toList archive).tree
      (neighbours "@B".toList other).tree where
  formed := (founded_neighbours isArchive).formed
  formed_right := (founded_neighbours isOther).formed
  workingDirectory := rfl
  entryAt? place owns := by
    have notArchive : place ≠ ["mods".toList, "@A".toList, "addons".toList, archive] := by
      rintro rfl
      exact not_owns_neighbours isArchive isArchive owns
    have notOther : place ≠ ["mods".toList, "@A".toList, "addons".toList, other] := by
      rintro rfl
      exact not_owns_neighbours isArchive isOther owns
    simp only [neighbours, FileTree.entryAt?, List.lookup_cons, beq_eq_false_iff_ne.2 notArchive,
      beq_eq_false_iff_ne.2 notOther]

end Archive

/-- Addons of different names are independent: the second one is published alike whatever archive the first one has. -/
theorem published_beside_neighbour :
    publishedPaths (afterNeighbours "@B".toList "first.pbo".toList) =
      [[⟨"ref/_addonIndexerTemp/@A/first/config.cpp".toList⟩], [⟨"ref/_addonIndexerTemp/@B/main/config.cpp".toList⟩]] ∧
    publishedPaths (afterNeighbours "@B".toList "other.pbo".toList) =
      [[⟨"ref/_addonIndexerTemp/@A/other/config.cpp".toList⟩], [⟨"ref/_addonIndexerTemp/@B/main/config.cpp".toList⟩]] ∧
    ∀ item ∈ (afterNeighbours "@B".toList "first.pbo".toList).catalog.addons,
      ∀ again ∈ (afterNeighbours "@B".toList "other.pbo".toList).catalog.addons,
        item.name = "@B".toList → again.name = "@B".toList →
          again.configs = item.configs ∧ again.definitions = item.definitions := by
  have isFirst : "first.pbo".toList ∈ archiveNames := by decide +kernel
  have isOther : "other.pbo".toList ∈ archiveNames := by decide +kernel
  refine ⟨by decide +kernel, by decide +kernel, ?_⟩
  exact published_of_isolated reliable_configEnvironment (publishesAmong_neighbours isFirst)
    (publishesAmong_neighbours isOther) (isolated_neighbours isFirst) (isolated_neighbours isOther) rfl rfl
    (alikeOn_neighbours isFirst isOther)

end AddonIndex.Indexing
