import AddonIndex.Proofs.FileTree.Housing
import AddonIndex.Proofs.Indexing.Frame
import AddonIndex.Proofs.Indexing.Sources

/-!
# Turns of other addons

The work on an addon changes its entry and what is extracted for it, and nothing else. So whatever is out of its reach is
alike before and after its turn. An addon whose own places are out of reach of the others finds them at its turn as they
were before the first turn, and what is read for it is what would have been read then.
-/

namespace AddonIndex

namespace ReferenceCache

open FileTree FileOp

variable {base : FileTree} {root : Path} {addon : Text} {home : Location}

theorem keepsHouse_clear {entry : Path} (spared : ¬ base.location entry <+: base.workingDirectory) :
    KeepsHouse base.workingDirectory (clear entry) := by
  intro tree housed
  unfold clear
  split
  · exact keepsHouse_removeTree spared tree housed
  · exact housed

theorem keepsHouse_prepare {cache : ReferenceCache}
    (spared : ¬ base.location (cache.entry addon) <+: base.workingDirectory) :
    KeepsHouse base.workingDirectory (prepare cache addon) :=
  (keepsHouse_clear spared).bind fun _ => (keepsHouse_makeDirectories _).bind fun _ =>
    (keepsHouse_writeBytes _ _).bind fun _ => keepsHouse_pure _

theorem keepsHouse_copy (entry : Path) (directory : Text) (file : Reference.SourceFile) :
    KeepsHouse home (copy entry directory file) := by
  have copies : KeepsHouse home (do
      copyFile file.source (target entry directory file)
      return target entry directory file) :=
    (keepsHouse_copyFile _ _).bind fun _ => keepsHouse_pure _
  unfold copy
  cases isParent : (target entry directory file).parent? with
  | none =>
      simp only [isParent]
      exact copies
  | some parent =>
      simp only [isParent]
      exact (keepsHouse_makeDirectories parent).bind fun _ => copies

end ReferenceCache

namespace Indexing

open Activity FileTree FileOp Reference ReferenceCache

variable {work : AddonWork} {temp : Text} {base tree : FileTree} {portion : Location → Prop} {world : World}

/-! ## What is owned and what is left alone -/

/-- The way to the reference root leads through directories. -/
theorem isDirectory_of_isOnWay {home place : Location} {root : Path} (housed : Housed home tree)
    (rooted : tree.isDirectory root = true) (onWay : IsOnWay tree root place) :
    tree.entryAt? place = some .directory := by
  rcases isDirectory_iff.1 rooted with ⟨reached, found⟩
  have walked := (find_eq_directory_iff.1 found).2
  rcases onWay with ⟨below, isBelow⟩ | ⟨front, ⟨rest, whole⟩, rfl⟩
  · have isRoot := housed.formed.directory_of_walk (housed.entryAt?_start _) walked
    rw [find_location found, ← isBelow] at isRoot
    cases below with
    | nil => rwa [List.append_nil] at isRoot
    | cons name rest => exact housed.formed.above isRoot (List.cons_ne_nil _ _)
  · rw [← whole, walk_append, bind_eq_ok_iff] at walked
    rcases walked with ⟨reached, walked, -⟩
    rw [← walk_eq_ok walked]
    exact housed.formed.directory_of_walk (housed.entryAt?_start _) walked

/-- An operation that changes only what is owned leaves a portion of the places alone of which nothing is owned. -/
theorem alikeOn_of_staysIn {α : Type} {operation : FileOp α} {home : Location} {root : Path}
    {logPath tempRoot : Option Path} {isEntry : Text → Prop} (alike : AlikeOn portion base tree)
    (housed : Housed home tree) (staysIn : StaysIn (estate tree root logPath tempRoot isEntry) operation)
    (keepsHouse : KeepsHouse home operation)
    (apart : ∀ place, portion place → ¬ (estate base root logPath tempRoot isEntry).owned place)
    (way : ∀ place, IsOnWay base root place → base.entryAt? place = some .directory) :
    AlikeOn portion base (operation.run tree).1 := by
  have bounds := staysIn tree (.refl housed.named)
  refine ⟨alike.formed, (keepsHouse tree housed).formed, ?_, fun place inside => ?_⟩
  · exact bounds.workingDirectory.trans alike.workingDirectory
  · have same := location_congr alike.workingDirectory
    rw [← alike.entryAt? place inside]
    rcases bounds.entryAt? place with same | owned | ⟨onWay, missing, -⟩
    · exact same
    · simp only [estate, same] at owned
      exact absurd owned (apart place inside)
    · change tree.entryAt? place = none at missing
      rw [alike.entryAt? place inside, way place (onWay.congr alike.workingDirectory)] at missing
      cases missing

/-! ## What the work on an addon leaves alone -/

namespace AddonWork

/-- Whether a portion of the places is out of reach of the work on an addon. -/
structure OutOfReach (work : AddonWork) (temp : Text) (base : FileTree) (portion : Location → Prop) : Prop where
  tempIsName : Path.IsName temp
  isName : Path.IsName work.addon.name
  home : portion base.workingDirectory
  isHome : base.entryAt? base.workingDirectory = some .directory
  rooted : base.isDirectory work.cache.root = true
  there : base.entryAt? (base.location (work.cache.root.join temp)) = some .directory
  entry : ∀ place, portion place → ¬ base.location work.entry <+: place
  extracted : ∀ place, portion place → ¬ base.location (work.extractedAt temp) <+: place
  directory : base.Covers portion work.addon.directory
  stems : ∀ name files, Path.IsName name → archives (work.addon.directory.join name) base = .ok files →
    ∀ archive ∈ files, ∃ stem, archive.fileStem? = some stem ∧ Path.IsName stem

/-- Whether the work on an addon has left a portion of the places alone, and will go on to. -/
structure Undisturbed (work : AddonWork) (temp : Text) (base : FileTree) (portion : Location → Prop) (world : World) :
    Prop where
  alike : AlikeOn portion base world.tree
  extracted : ∀ directory ∈ world.extracted, ∃ stem, Path.IsName stem ∧ directory = (work.extractedAt temp).join stem

theorem isAboutPlaces_undisturbed : IsAboutPlaces (Undisturbed work temp base portion) := by
  rintro world after same ⟨alike, extracted⟩
  exact ⟨same.tree ▸ alike, same.extracted ▸ extracted⟩

section Apart

variable (outOfReach : work.OutOfReach temp base portion)

include outOfReach

theorem OutOfReach.housed (alike : AlikeOn portion base tree) : Housed base.workingDirectory tree where
  formed := alike.formed_right
  workingDirectory := alike.workingDirectory
  isHome := by
    rw [alike.entryAt? _ outOfReach.home]
    exact outOfReach.isHome

/-- Above where the archives of an addon are extracted to there are directories. -/
theorem OutOfReach.above_extracted (formed : base.WellFormed) {place : Location}
    (above : place <+: base.location (work.extractedAt temp)) :
    place = base.location (work.extractedAt temp) ∨ base.entryAt? place = some .directory := by
  have leads : base.location (work.extractedAt temp) =
      base.location (work.cache.root.join temp) ++ [work.addon.name] := location_join_name _ outOfReach.isName
  rw [leads] at above ⊢
  refine (List.prefix_concat_iff.1 above).imp_right ?_
  rintro ⟨below, isBelow⟩
  have isTemp := outOfReach.there
  rw [← isBelow] at isTemp
  cases below with
  | nil => rwa [List.append_nil] at isTemp
  | cons name rest => exact formed.above isTemp (List.cons_ne_nil _ _)

namespace Undisturbed

/-- An operation that stays in the entry and where archives are extracted to leaves everything else. -/
theorem run {α : Type} {operation : FileOp α} (undisturbed : work.Undisturbed temp base portion world)
    (staysIn : StaysIn (estate world.tree work.cache.root none (some (work.extractedAt temp)) (Eq work.addon.name))
      operation) (keepsHouse : KeepsHouse base.workingDirectory operation) :
    work.Undisturbed temp base portion { world with tree := (operation.run world.tree).1 } where
  alike := by
    have alike := undisturbed.alike
    apply alikeOn_of_staysIn alike (outOfReach.housed alike) staysIn keepsHouse
    · rintro place inside (⟨_, ⟨⟩, -⟩ | ⟨_, ⟨⟩, within⟩ | ⟨_, rfl, within⟩)
      · exact outOfReach.extracted place inside within
      · exact outOfReach.entry place inside within
    · exact fun place onWay => isDirectory_of_isOnWay (outOfReach.housed (.refl alike.formed)) outOfReach.rooted onWay
  extracted := undisturbed.extracted

/-- The stems of archives are names as long as the directory of the addon is left alone. -/
theorem exists_stem {looked seen : World} {container archive : Path} {files : List Path}
    (isLooked : work.Undisturbed temp base portion looked)
    (isContainer : archiveContainer? work.addon.directory looked.tree = .ok (some container))
    (isSeen : work.Undisturbed temp base portion seen) (areArchives : archives container seen.tree = .ok files)
    (member : archive ∈ files) : ∃ stem, Path.IsName stem ∧
      extractionDirectory (work.extractedAt temp) archive = (work.extractedAt temp).join stem := by
  have alike := isSeen.alike
  have named : base.Named := (outOfReach.housed (.refl alike.formed)).named
  rcases exists_join_of_archiveContainer? (outOfReach.housed isLooked.alike).named isContainer with ⟨name, isName, rfl⟩
  have covers := outOfReach.directory.join isName
  rw [archives_alike alike named covers] at areArchives
  rcases outOfReach.stems name files isName areArchives archive member with ⟨stem, isStem, isStemName⟩
  exact ⟨stem, isStemName, extractionDirectory_eq isStem⟩

/-- An archive is extracted to where the addon may. -/
theorem extract (undisturbed : work.Undisturbed temp base portion world) {stem : Text} {archive : Path} {limit : Duration}
    (extractsBelow : ExtractsBelow work.environment.tools) (isStem : Path.IsName stem) :
    work.Undisturbed temp base portion { world with
      tree := (work.environment.tools.extract archive ((work.extractedAt temp).join stem) limit world.tree).tree } where
  alike := by
    have alike := undisturbed.alike
    have extending := extractsBelow archive ((work.extractedAt temp).join stem) limit world.tree alike.formed_right
    have start := extending.workingDirectory.trans alike.workingDirectory
    refine ⟨alike.formed, extending.formed, start, fun place inside => ?_⟩
    have leads : world.tree.location ((work.extractedAt temp).join stem) =
        base.location (work.extractedAt temp) ++ [stem] := by
      rw [location_join_name _ isStem, location_congr alike.workingDirectory]
    rw [← alike.entryAt? place inside]
    rcases extending.entryAt? place with same | ⟨below, -⟩ | ⟨above, missing, -⟩
    · exact same
    · rw [leads] at below
      exact absurd ((List.prefix_append _ _).trans below) (outOfReach.extracted place inside)
    · rw [leads, List.prefix_concat_iff] at above
      rcases above with rfl | above
      · exact absurd (List.prefix_append _ _) (outOfReach.extracted _ inside)
      rcases outOfReach.above_extracted alike.formed above with rfl | isDirectory
      · exact absurd List.prefix_rfl (outOfReach.extracted _ inside)
      · rw [alike.entryAt? place inside, isDirectory] at missing
        cases missing
  extracted := undisturbed.extracted

/-- A binary config is converted where the archives of the addon are extracted to. -/
theorem convert (undisturbed : work.Undisturbed temp base portion world) {seen : FileTree} {stem : Text} {binary : Path}
    {limit : Duration} (inPlace : ConvertsInPlace work.environment.tools) (isStem : Path.IsName stem) (named : seen.Named)
    (member : binary ∈ (configFiles ((work.extractedAt temp).join stem) seen).binaries) :
    work.Undisturbed temp base portion { world with
      tree := (work.environment.tools.convert binary (convertedConfig binary) limit world.tree).tree } where
  alike := by
    have alike := undisturbed.alike
    rcases inPlace binary (convertedConfig binary) limit world.tree alike.formed_right with ⟨formed, start, elsewhere⟩
    have listed : binary ∈ (allConfigs [(work.extractedAt temp).join stem] seen).binaries :=
      List.mem_flatMap.2 ⟨_, List.mem_singleton_self _, member⟩
    have areNamed : ∀ directory ∈ [(work.extractedAt temp).join stem],
        ∃ stem, Path.IsName stem ∧ directory = (work.extractedAt temp).join stem :=
      List.forall_mem_singleton.2 ⟨stem, isStem, rfl⟩
    rcases exists_descend_of_mem_binaries named areNamed listed with ⟨names, someName, areNames, rfl⟩
    have nonempty := (endsInName_extractionRoot work.cache temp outOfReach.isName).text_ne_nil
    have isName : Path.IsName textConfigName := by decide
    refine ⟨alike.formed, formed, start.trans alike.workingDirectory, fun place inside => ?_⟩
    rw [elsewhere place]
    · exact alike.entryAt? place inside
    · rintro rfl
      apply outOfReach.extracted _ inside
      rw [convertedConfig, location_withFileName_descend nonempty someName areNames isName,
        location_congr alike.workingDirectory]
      exact List.prefix_append _ _
  extracted := undisturbed.extracted

end Undisturbed

theorem withstands_undisturbed (disciplined : Disciplined work.environment.tools) :
    work.Withstands (work.cache.root.join temp) (work.Undisturbed temp base portion)
      fun _ => work.Undisturbed temp base portion where
  allows := isAboutPlaces_undisturbed.allows
  notes world looked seen container files archive undisturbed isLooked isContainer isSeen areArchives member := by
    refine ⟨undisturbed.alike, fun directory noted => ?_⟩
    rcases List.mem_append.1 noted with earlier | last
    · exact undisturbed.extracted directory earlier
    · rw [List.mem_singleton.1 last]
      exact Undisturbed.exists_stem outOfReach isLooked isContainer isSeen areArchives member
  extracts world looked seen container files archive undisturbed isLooked isContainer isSeen areArchives member := by
    rcases Undisturbed.exists_stem outOfReach isLooked isContainer isSeen areArchives member with ⟨stem, isStem, same⟩
    rw [show extractionDirectory ((work.cache.root.join temp).join work.addon.name) archive = _ from same]
    exact undisturbed.extract outOfReach disciplined.extractsBelow isStem
  converts world listing seen directory binary undisturbed isListing noted isSeen member := by
    rcases isListing.extracted directory noted with ⟨stem, isStem, rfl⟩
    exact undisturbed.convert outOfReach disciplined.convertsInPlace isStem (outOfReach.housed isSeen.alike).named member
  prepares world undisturbed := by
    apply undisturbed.run outOfReach
    · exact staysIn_prepare outOfReach.isName rfl
    · exact keepsHouse_prepare (outOfReach.entry _ outOfReach.home)
  copies world listing seen item undisturbed isListing isSeen member := by
    apply undisturbed.run outOfReach
    · exact staysIn_copy_of_mem_savePlan outOfReach.isName rfl (outOfReach.housed isSeen.alike).named member
    · exact keepsHouse_copy _ _ _
  marks world undisturbed := by
    apply undisturbed.run outOfReach
    · exact staysIn_writeMarker rfl true
    · exact keepsHouse_writeBytes _ _
  deletes world listing directory undisturbed isListing noted := by
    rcases isListing.extracted directory noted with ⟨stem, isStem, rfl⟩
    have within : base.location (work.extractedAt temp) <+: base.location ((work.extractedAt temp).join stem) :=
      within_join base _ isStem
    apply undisturbed.run outOfReach
    · exact staysIn_removeTree (owned_of_within (within_join world.tree _ isStem))
    · exact keepsHouse_removeTree fun isHome => outOfReach.extracted _ outOfReach.home (within.trans isHome)
  removes world undisturbed := by
    apply undisturbed.run outOfReach
    · exact staysIn_removeDirectory (.inr (.inl ⟨_, rfl, List.prefix_rfl⟩))
    · exact keepsHouse_removeDirectory fun isHome => outOfReach.extracted _ outOfReach.home isHome

end Apart

theorem isAboutPlaces_alikeOn : IsAboutPlaces fun world => AlikeOn portion base world.tree := by
  intro world after same alike
  exact same.tree ▸ alike

/-- The turn of an addon leaves alone what is out of its reach. -/
theorem alikeOn_of_indexAddon {moves : List (Move World)} {after : World} {result : Option (Except RunFailure Unit)}
    (outOfReach : work.OutOfReach temp base portion) (disciplined : Disciplined work.environment.tools)
    (execution : Executes Interference (indexAddon work (work.cache.root.join temp)) world moves after result)
    (alike : AlikeOn portion base world.tree) : AlikeOn portion base after.tree := by
  have about := @isAboutPlaces_alikeOn base portion
  rcases executes_modify_bind_iff.1 execution with ⟨starting, _, rfl, toStart, execution⟩
  rcases executes_modify_bind_iff.1 execution with ⟨noting, _, rfl, toNote, execution⟩
  rcases executes_modify_bind_iff.1 execution with ⟨emptying, _, rfl, toEmpty, execution⟩
  have started : AlikeOn portion base starting.tree := about.gap toStart alike
  have noted : AlikeOn portion base noting.tree := about.gap toNote started
  have emptied : AlikeOn portion base emptying.tree := about.gap toEmpty noted
  have begins : work.Undisturbed temp base portion { emptying with extracted := [] } :=
    ⟨emptied, List.forall_mem_nil _⟩
  have withstands := withstands_undisturbed outOfReach disciplined
  have goesOn := withstands.upholds_readOrIndex.bind fun result _ =>
    withstands.upholds_cleanup.bind fun _ _ => @upholds_finishAddon _ _ work withstands.allows result
  exact (isAboutPlaces_undisturbed.reached goesOn execution begins).2.1.alike

/-! ## The turn of an addon -/

section Turn

variable {first second : FileTree} {directories : List Path} {origin : Path} {below : Location}

theorem isBinary_restrict (distinct : tree.Distinct) (covers : tree.Covers portion origin) :
    IsBinary (tree.restrict portion) origin directories below ↔ IsBinary tree origin directories below := by
  apply and_congr_left'
  apply exists_congr
  intro stem
  apply exists_congr
  intro names
  apply and_congr_right'
  apply and_congr_right
  intro isName
  have covers := covers.join isName
  have files : (tree.restrict portion).filesAt (tree.location origin ++ [stem]) =
      tree.filesAt (tree.location origin ++ [stem]) := by
    unfold filesAt
    rw [below_restrict]
    rw [← location_join_name origin isName]
    exact covers.below
  rw [isDirectory_restrict distinct covers, show (tree.restrict portion).location origin = tree.location origin from rfl,
    files]

theorem singleBinaries_alike (alike : AlikeOn portion first second) (covers : first.Covers portion origin)
    (single : SingleBinaries origin directories first) : SingleBinaries origin directories second := by
  have isBinary : ∀ below, IsBinary second origin directories below → IsBinary first origin directories below := by
    intro below isBinary
    apply (isBinary_restrict alike.formed.distinct covers).1
    apply IsBinary.relist alike.restrict (List.Perm.refl _)
    exact (isBinary_restrict alike.formed_right.distinct (covers.congr alike.workingDirectory)).2 isBinary
  intro binary other isFirst isOther
  exact single binary other (isBinary binary isFirst) (isBinary other isOther)

/-- What the turn of an addon needs of the files that the turns before it leave alone. -/
structure Indexable (work : AddonWork) (temp : Text) (base : FileTree) (portion : Location → Prop) : Prop where
  extractable : Extractable work temp base
  named : base.Named
  owned : work.OwnedBy temp base portion
  one : HasOneContainer base work.addon.directory
  single : work.ExtractsSingleBinaries temp base
  reads : ∀ config ∈ (work.sources temp base).1,
    ReadsWithin work.environment.reader portion (work.sources temp base).2 config

namespace Indexable

variable (indexable : work.Indexable temp first portion) (alike : AlikeOn portion first second)

include indexable alike

theorem separate : Separate work.cache temp work.addon.name second := by
  have separate := indexable.extractable.separate
  have workingDirectory := alike.workingDirectory
  have start : second.start work.cache.root = first.start work.cache.root := by
    rw [FileTree.start, FileTree.start, workingDirectory]
  have same := location_congr workingDirectory
  have rooted : second.find work.cache.root = first.find work.cache.root := by
    apply alike.find
    exact fun passed member => indexable.owned.entry.passed passed (mem_visited_join separate.isName member)
  refine ⟨separate.tempIsName, separate.isName, separate.differ, ?_, ?_, ?_, ?_⟩
  · rw [FileTree.isDirectory, rooted]
    exact separate.rooted
  · rw [same, alike.entryAt?]
    · exact separate.there
    · apply indexable.owned.entry.above
      exact within_join first work.cache.root separate.isName
  · unfold Avoids
    rw [start, show work.cache.entryPlace work.addon.name second = _ from same _]
    exact separate.avoids
  · unfold Avoids
    rw [start, same]
    exact separate.avoidsTemp

theorem extractable_alike : Extractable work temp second where
  formed := alike.formed_right
  separate := indexable.separate alike
  fresh := by
    rw [location_congr alike.workingDirectory, alike.entryAt?]
    · exact indexable.extractable.fresh
    · exact indexable.owned.extracted.above _ List.prefix_rfl
  stems container files isContainer areArchives := by
    have named := indexable.named
    have covers := indexable.owned.directory
    have listed := listArchives_alike alike named covers indexable.one
    have listedAgain : work.listArchives second = .ok (some files) := by
      unfold listArchives
      simp only [isContainer, areArchives]
    rw [listed] at listedAgain
    rcases exists_container listedAgain with ⟨other, isOther, areOthers⟩
    exact indexable.extractable.stems other files isOther areOthers

omit alike in
/-- The stems of the archives that are listed are names. -/
theorem stems {files : List Path} (listed : work.listArchives first = .ok (some files)) :
    ∀ archive ∈ files, ∃ stem, archive.fileStem? = some stem ∧ Path.IsName stem := by
  rcases exists_container listed with ⟨container, isContainer, areArchives⟩
  exact (indexable.extractable.stems container files isContainer areArchives).2

theorem single_alike (disciplined : Disciplined work.environment.tools) : work.ExtractsSingleBinaries temp second := by
  intro files listed
  rw [listArchives_alike alike indexable.named indexable.owned.directory indexable.one] at listed
  have extracts := extractions_alike disciplined alike indexable.named indexable.owned listed (indexable.stems listed)
  apply singleBinaries_alike extracts.alike (indexable.owned.extracted.congr extracts.workingDirectory)
  exact indexable.single files listed

end Indexable

/-- What is read for an addon in its turn is what would be read if its turn came first. -/
theorem configsOf_of_turn {world after : World} {moves : List (Move World)} (indexable : work.Indexable temp base portion)
    (disciplined : Disciplined work.environment.tools) (reads : ReadsSteadily work.environment.reader)
    (alike : AlikeOn portion base world.tree) (live : world.channel.Live) (uncancelled : Uncancelled work.addon after)
    (unread : world.configsOf work.addon = some [])
    (execution : Executes Interference (indexAddon work (work.cache.root.join temp)) world moves after (some (.ok ()))) :
    after.configsOf work.addon = some (work.readings temp base) := by
  have completes : Completes work.addon (indexAddon work (work.cache.root.join temp)) world (.ok ()) after :=
    ⟨live, uncancelled, moves, execution⟩
  rcases exists_takesTurn completes with ⟨result, begun, indexed, cleared, outcome, begins, indexes, clears, finishes⟩
  have begunScene := (settles_begin.scene begins).2
  have tree : begun.tree = world.tree := congrArg Scene.tree begunScene
  have unreadStill : begun.configsOf work.addon = some [] := (congrArg Scene.configs begunScene).trans unread
  have named : world.tree.Named := by
    refine ⟨alike.formed_right.named, ?_⟩
    rw [alike.workingDirectory]
    exact indexable.named.start
  have unpacks : work.Unpacks temp (begun.scene work.addon) := by
    rw [begunScene]
    exact ⟨indexable.extractable_alike alike, named, indexable.single_alike alike disciplined, rfl⟩
  have unrefused : ∀ refusal, result ≠ .error (.workerRefused refusal) := by
    rintro refusal rfl
    cases outcome
  have read := configsOf_of_readOrIndex disciplined reads unpacks unreadStill indexes unrefused
  rw [tree, readings_alike disciplined alike indexable.named indexable.extractable.separate.isName indexable.owned
    indexable.one (fun files listed => indexable.stems listed) indexable.reads] at read
  rcases clears.executes with ⟨_, clearing⟩
  rcases finishes.executes with ⟨_, finishing⟩
  rw [configsOf_of_executes (works_finishAddon _ _) finishing, configsOf_of_executes (works_cleanup _) clearing, read]

end Turn

end AddonWork

/-! ## The turns of all addons -/

section Turns

variable {environment : Environment} {cache : ReferenceCache} {addon : Handle} {addons : List Handle} {after : World}
  {moves : List (Move World)}

/-- What is read for an addon that is not cancelled is what would be read if its turn came first, if its own places are
out of reach of the work on the others. -/
theorem configsOf_of_indexEach (disciplined : Disciplined environment.tools) (reads : ReadsSteadily environment.reader)
    (indexable : AddonWork.Indexable { environment, cache, addon } temp base portion)
    (others : ∀ other ∈ addons, other ≠ addon →
      AddonWork.OutOfReach { environment, cache, addon := other } temp base portion)
    (execution : Executes Interference (indexEach environment cache (cache.root.join temp) addons) world moves after
      (some (.ok ())))
    (live : world.channel.Live) (distinct : addons.Pairwise fun first second => first.index ≠ second.index)
    (unread : ∀ addon ∈ addons, world.configsOf addon = some []) (alike : AlikeOn portion base world.tree)
    (member : addon ∈ addons) (uncancelled : Uncancelled addon after) :
    after.configsOf addon = some (AddonWork.readings { environment, cache, addon } temp base) := by
  have about := @AddonWork.isAboutPlaces_alikeOn base portion
  induction addons generalizing world moves with
  | nil => cases member
  | cons first rest ih =>
      rcases List.forall_mem_cons.1 unread with ⟨unreadFirst, unreadRest⟩
      rcases List.pairwise_cons.1 distinct with ⟨apart, distinctRest⟩
      rcases List.forall_mem_cons.1 others with ⟨outOfReach, othersRest⟩
      rcases executes_inspect_bind_iff.1 execution with ⟨seen, _, rfl, gap, taking⟩
      have liveSeen := live_of_interference gap live
      have alikeSeen : AlikeOn portion base seen.tree := about.gap gap alike
      have unreadSeen : ∀ addon ∈ rest, seen.configsOf addon = some [] := fun addon member =>
        (configsOf_of_gap gap).trans (unreadRest addon member)
      split at taking
      · rename_i cancelled
        rcases List.mem_cons.1 member with rfl | later
        · have before : Uncancelled addon seen :=
            uncancelled.of_follows (follows_of_executes follow_indexEach taking)
          rw [before] at cancelled
          cases cancelled
        · exact ih othersRest taking liveSeen distinctRest unreadSeen alikeSeen later
      · obtain ⟨during, later, middle, answer, rfl, works, goesOn⟩ := taking.bind_some
        match answer with
        | .error failure => cases (executes_pure_iff.1 goesOn).2.1
        | .ok () =>
        rcases List.mem_cons.1 member with rfl | isLater
        · have read := AddonWork.configsOf_of_turn indexable disciplined reads alikeSeen liveSeen
            (uncancelled.of_follows (follows_of_executes follow_indexEach goesOn))
            ((configsOf_of_gap gap).trans unreadFirst) works
          -- The turns of the others come later.
          rw [(works_indexEach fun _ member => member).configsOf
            (fun other member => (apart other member).symm) goesOn, read]
        · have differs : first ≠ addon := fun same => apart addon isLater (congrArg Handle.index same)
          have liveMiddle := (AddonWork.works_indexAddon trivial (cache.root.join temp)).live works liveSeen
          have unreadMiddle : ∀ addon ∈ rest, middle.configsOf addon = some [] := by
            intro other member
            rw [(AddonWork.works_indexAddon rfl (cache.root.join temp)).configsOf
              (fun _ same => same ▸ apart other member) works]
            exact unreadSeen other member
          have alikeMiddle := AddonWork.alikeOn_of_indexAddon (outOfReach differs) disciplined works alikeSeen
          exact ih othersRest goesOn liveMiddle distinctRest unreadMiddle alikeMiddle isLater

end Turns

end Indexing

end AddonIndex
