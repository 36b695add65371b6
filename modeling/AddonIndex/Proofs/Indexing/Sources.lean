import AddonIndex.Proofs.FileTree.Portion
import AddonIndex.Proofs.Indexing.Parallelism
import Mathlib.Data.List.Find

/-!
# What an addon is read from

The configs that are read for an addon, and the files among which they are read, are a function of the files that its
turn begins with: either those of its entry in the cache, or those that come of its archives. This function looks at
nothing but the directory of the addon, its entry, and the place where its archives are extracted to.
-/

namespace AddonIndex.Indexing

open Activity ClassConfig FileTree Reference ReferenceCache

variable {work : AddonWork} {temp : Text} {portion : Location → Prop} {tree other first second : FileTree}
  {directories : List Path} {container directory path : Path}

namespace AddonWork

/-- The configs that are to be read once some archives are extracted, with the files among which they are read: those
after the conversions, in the order of listing. -/
def convertedSources (work : AddonWork) (directories : List Path) (tree : FileTree) : List Path × FileTree :=
  let found := allConfigs directories tree
  let (converted, answers) := doEach work.conversionDuty.action found.binaries tree
  (Path.sort (found.texts ++ ((answers.filter Prod.snd).map Prod.fst).map convertedConfig), converted)

/-- The configs that are to be read for an addon, with the files among which they are read: those of its entry if that
is valid, and otherwise those that come of its archives, in the order of listing. -/
def sources (work : AddonWork) (temp : Text) (tree : FileTree) : List Path × FileTree :=
  if work.cache.state work.addon.name tree = .valid then (ReferenceCache.configFiles work.entry tree, tree)
  else
    match work.listArchives tree with
    | .ok (some files) => work.convertedSources (files.map (extractionDirectory (work.extractedAt temp)))
        (doEach (work.extractionDuty (work.extractedAt temp)).action files tree).1
    | _ => ([], tree)

/-- What is read for an addon. -/
def readings (work : AddonWork) (temp : Text) (tree : FileTree) : List ParsedConfig :=
  parsedConfigs work.environment.reader (work.sources temp tree).2 (work.sources temp tree).1

/-! ## A turn reads the sources -/

section Turn

variable {base : FileTree} {begun ended : World} {before after : Scene} {configs : List Path}
  (disciplined : Disciplined work.environment.tools)

include disciplined

/-- In whatever order the binary configs are converted, the same is left and the same is to be read. -/
theorem Arranged.convertedSources_eq (arranged : work.Arranged temp base before)
    (single : SingleBinaries (work.extractedAt temp) before.extracted before.tree)
    (same : before.tree.SameEntries tree) (perm : before.extracted.Perm directories)
    (converts : work.ConvertsTo before configs after) :
    (work.convertedSources directories tree).1 = configs ∧
      after.tree.SameEntries (work.convertedSources directories tree).2 := by
  rcases converts with ⟨rfl, answers, deeds, calls⟩
  have independent := independent_conversions disciplined.convertsInPlace disciplined.goByInput arranged.laidOut.formed
    arranged.laidOut.separate single
  rcases allConfigs_perm same arranged.named perm with ⟨binaries, texts⟩
  have ready := independent.perm arranged.convertible calls.dealt.symm
  rcases independent.doEach_perm (calls.dealt.trans binaries) ready same with ⟨trees, replies⟩
  have called := calls.doEach_eq plain_conversionDuty
  simp only at called
  rw [called] at trees replies
  refine ⟨arranged.sort_converted_eq calls ?_, trees⟩
  exact calls.converted.trans (texts.append (((replies.filter _).map _).map _))

/-- In whatever order archives are extracted and binary configs converted, the same is left and the same is to be
read. -/
theorem Unpacks.sources_eq {files : List Path} {extracted : Scene} {answers : List (Path × Bool)} {deeds : List Deed}
    (unpacks : work.Unpacks temp before) (notValid : work.cache.state work.addon.name before.tree ≠ .valid)
    (listed : work.listArchives before.tree = .ok (some files))
    (calls : CallsAll (work.extractionDuty (work.extractedAt temp)) extractionHabit files before answers deeds extracted)
    (converts : work.ConvertsTo extracted configs after) :
    (work.sources temp before.tree).1 = configs ∧ after.tree.SameEntries (work.sources temp before.tree).2 := by
  rcases unpacks.arranged_of_callsAll disciplined listed calls with ⟨arranged, single⟩
  have independent := independent_extractions disciplined.extractsBelow disciplined.goByInput
    unpacks.extractable.formed unpacks.extractable.fresh
  have ready := independent.perm (unpacks.unpackable listed) calls.dealt.symm
  have trees := (independent.doEach_perm calls.dealt ready (.refl unpacks.extractable.formed.distinct)).1
  rw [calls.doEach_eq plain_extractionDuty] at trees
  have directories := calls.extracted
  rw [unpacks.nothing, List.nil_append] at directories
  have whole : work.sources temp before.tree =
      work.convertedSources (files.map (extractionDirectory (work.extractedAt temp)))
        (doEach (work.extractionDuty (work.extractedAt temp)).action files before.tree).1 := by
    rw [sources, if_neg notValid, listed]
  rw [whole]
  exact arranged.convertedSources_eq disciplined single trees directories converts

/-- What is read for an addon that is indexed is what is read of the sources. -/
theorem configsOf_of_indexes {answer : Except RunFailure StageStatus}
    (reads : ReadsSteadily work.environment.reader) (unpacks : work.Unpacks temp (begun.scene work.addon))
    (unread : begun.configsOf work.addon = some []) (notValid : work.cache.state work.addon.name begun.tree ≠ .valid)
    (indexes : work.Indexes (work.cache.root.join temp) begun answer ended)
    (unrefused : ∀ refusal, answer ≠ .error (.workerRefused refusal)) :
    ended.configsOf work.addon = some (work.readings temp begun.tree) := by
  cases indexes with
  | cut extracts isCut =>
      have extractsTo := extractsTo_of_completes disciplined.extractReturns extracts unrefused
      have stops : (ended.scene work.addon = begun.scene work.addon) ∧
          work.sources temp begun.tree = ([], begun.tree) := by
        rw [sources, if_neg notValid]
        unfold ExtractsTo at extractsTo
        cases listed : work.listArchives begun.tree with
        | error failure =>
            rw [show work.listArchives (begun.scene work.addon).tree = _ from listed] at extractsTo
            exact ⟨extractsTo.2, rfl⟩
        | ok files =>
            rw [show work.listArchives (begun.scene work.addon).tree = _ from listed] at extractsTo
            cases files with
            | none => exact ⟨extractsTo.2, rfl⟩
            | some files => exact absurd extractsTo.1 isCut
      have unreadStill : ended.configsOf work.addon = some [] := (congrArg Scene.configs stops.1).trans unread
      rw [unreadStill, readings, stops.2]
      rfl
  | @whole configs extracted converted parsed _ status extracts converts parses saves =>
      have extractsTo := extractsTo_of_completes disciplined.extractReturns extracts fun _ => nofun
      rcases convertsTo_of_completes disciplined.convertReturns converts fun _ => nofun with ⟨_, ⟨⟩, convertsTo⟩
      unfold ExtractsTo at extractsTo
      cases listed : work.listArchives begun.tree with
      | error failure =>
          rw [show work.listArchives (begun.scene work.addon).tree = _ from listed] at extractsTo
          cases extractsTo.1
      | ok files =>
          rw [show work.listArchives (begun.scene work.addon).tree = _ from listed] at extractsTo
          cases files with
          | none => cases extractsTo.1
          | some files =>
              rcases extractsTo with ⟨-, answers, deeds, calls⟩
              rcases unpacks.sources_eq disciplined notValid listed calls convertsTo with ⟨rfl, same⟩
              rcases extracts.executes with ⟨_, extracting⟩
              rcases converts.executes with ⟨_, converting⟩
              rcases saves.executes with ⟨_, saving⟩
              -- Only parsing reads configs.
              rw [configsOf_of_executes works_save saving, parses.parse_reads.2.2,
                configsOf_of_executes works_convert converting, configsOf_of_executes (works_extract _) extracting, unread]
              have results := reads.readResult_eq same
              change readResult work.environment.reader (work.sources temp begun.tree).2 = _ at results
              rw [readings, parsedConfigs, parsedConfigs, results]
              rfl

/-- What is read for an addon in its turn is what is read of the sources, whatever turns the workers take. -/
theorem configsOf_of_readOrIndex {answer : Except RunFailure StageStatus}
    (reads : ReadsSteadily work.environment.reader) (unpacks : work.Unpacks temp (begun.scene work.addon))
    (unread : begun.configsOf work.addon = some [])
    (completes : Completes work.addon (work.readOrIndex (work.cache.root.join temp)) begun answer ended)
    (unrefused : ∀ refusal, answer ≠ .error (.workerRefused refusal)) :
    ended.configsOf work.addon = some (work.readings temp begun.tree) := by
  rcases completes.bind_cases (speaksOf_readOrIndex _).follow with ⟨found, read, readsEntry, rest⟩
  by_cases valid : work.cache.state work.addon.name begun.tree = .valid
  · obtain ⟨rfl, -⟩ := readsEntry.readFromCache valid
    rcases readsEntry.pure_right rest with ⟨rfl, readsEntry⟩
    have scene := (readsEntry.readFromCache valid).2
    rw [foldl_read] at scene
    have areRead : ended.configsOf work.addon = (begun.configsOf work.addon).map _ := congrArg Scene.configs scene
    rw [areRead, unread, readings, sources, if_pos valid]
    rfl
  · have nothing : Attains work.addon work.readFromCache (begun.scene work.addon) fun found after =>
        found = false ∧ after = begun.scene work.addon := attains_readFromCache_of_not_valid valid ⟨rfl, rfl⟩
    rcases readsEntry.attained nothing speaksOf_readFromCache.follow with ⟨rfl, scene⟩
    have tree : read.tree = begun.tree := congrArg Scene.tree scene
    have unreadStill : read.configsOf work.addon = some [] := (congrArg Scene.configs scene).trans unread
    rw [← scene] at unpacks
    rw [← tree] at valid ⊢
    have indexes := indexes_of_completes disciplined.convertReturns rest unrefused
    exact configsOf_of_indexes disciplined reads unpacks unreadStill valid indexes unrefused

end Turn

/-! ## The sources are found in a portion of the places -/

/-- Whether a portion of the places holds the directory of an addon, its entry, and where its archives are extracted to. -/
structure OwnedBy (work : AddonWork) (temp : Text) (tree : FileTree) (portion : Location → Prop) : Prop where
  directory : tree.Covers portion work.addon.directory
  entry : tree.Covers portion work.entry
  extracted : tree.Covers portion (work.extractedAt temp)

theorem OwnedBy.mono {larger : Location → Prop} (owned : work.OwnedBy temp tree portion)
    (widens : ∀ place, portion place → larger place) : work.OwnedBy temp tree larger :=
  ⟨owned.directory.mono widens, owned.entry.mono widens, owned.extracted.mono widens⟩

end AddonWork

/-! ### What is listed -/

section Listing

variable (distinct : tree.Distinct)

include distinct

theorem archiveContainer?_restrict (covers : tree.Covers portion path) :
    archiveContainer? path (tree.restrict portion) = archiveContainer? path tree := by
  rw [archiveContainer?, archiveContainer?, list_restrict distinct covers]

theorem archives_restrict (covers : tree.Covers portion path) :
    archives path (tree.restrict portion) = archives path tree := by
  rw [archives, archives, list_restrict distinct covers]

theorem configFiles_restrict (covers : tree.Covers portion path) :
    configFiles path (tree.restrict portion) = configFiles path tree := by
  rw [configFiles, configFiles, filesBelow_restrict distinct covers]

theorem findFiles_restrict (covers : tree.Covers portion path) (wanted : Text → Bool) :
    (tree.restrict portion).findFiles path wanted = tree.findFiles path wanted := by
  rw [findFiles, findFiles, filesBelow_restrict distinct covers]

end Listing

/-- The directory for the archives of an addon is listed in the directory of the addon. -/
theorem exists_join_of_archiveContainer? (named : tree.Named)
    (isContainer : archiveContainer? path tree = .ok (some container)) :
    ∃ name, Path.IsName name ∧ container = path.join name := by
  obtain ⟨children, listed, isFound⟩ := bind_eq_ok_iff.1 isContainer
  rcases Option.map_eq_some_iff.1 (Except.ok.inj isFound) with ⟨⟨name, entry⟩, found, rfl⟩
  refine ⟨name, ?_, rfl⟩
  obtain ⟨⟨place, there⟩, -, isList⟩ := bind_eq_ok_iff.1 listed
  cases there with
  | file content executable => cases isList
  | directory =>
      cases isList
      exact isName_of_mem_children named.entries (List.mem_of_find?_eq_some found)

section Alike

variable (alike : AlikeOn portion first second) (named : first.Named)

include alike named

theorem archives_alike (covers : first.Covers portion path) : archives path second = archives path first := by
  rw [← archives_restrict alike.formed.distinct covers,
    ← archives_restrict alike.formed_right.distinct (covers.congr alike.workingDirectory)]
  exact archives_eq alike.restrict named.restrict path

/-- In trees that are alike on the directory of an addon the same archives are listed. -/
theorem AddonWork.listArchives_alike (covers : first.Covers portion work.addon.directory)
    (one : HasOneContainer first work.addon.directory) : work.listArchives second = work.listArchives first := by
  have distinct := alike.formed.distinct
  have distinctRight := alike.formed_right.distinct
  have coversRight := covers.congr alike.workingDirectory
  have oneLeft : HasOneContainer (first.restrict portion) work.addon.directory := by
    unfold HasOneContainer
    rw [list_restrict distinct covers]
    exact one
  have container : archiveContainer? work.addon.directory second = archiveContainer? work.addon.directory first := by
    rw [← archiveContainer?_restrict distinct covers, ← archiveContainer?_restrict distinctRight coversRight]
    exact archiveContainer?_eq alike.restrict named.restrict oneLeft
  unfold listArchives
  rw [container]
  cases isContainer : archiveContainer? work.addon.directory first with
  | error cause => rfl
  | ok found =>
      cases found with
      | none => rfl
      | some container =>
          rcases exists_join_of_archiveContainer? named isContainer with ⟨name, isName, rfl⟩
          simp only [archives_alike alike named (covers.join isName)]

theorem configFiles_alike (covers : first.Covers portion path) : configFiles path second = configFiles path first := by
  rw [← configFiles_restrict alike.formed.distinct covers,
    ← configFiles_restrict alike.formed_right.distinct (covers.congr alike.workingDirectory)]
  exact configFiles_eq alike.restrict named.restrict path

theorem allConfigs_alike (covers : ∀ directory ∈ directories, first.Covers portion directory) :
    allConfigs directories second = allConfigs directories first := by
  have each : ∀ directory ∈ directories, configFiles directory second = configFiles directory first :=
    fun directory member => configFiles_alike alike named (covers directory member)
  unfold allConfigs
  rw [List.flatMap_congr fun directory member => congrArg ConfigFiles.binaries (each directory member),
    List.flatMap_congr fun directory member => congrArg ConfigFiles.texts (each directory member)]

theorem cachedConfigs_alike (covers : first.Covers portion path) :
    ReferenceCache.configFiles path second = ReferenceCache.configFiles path first := by
  unfold ReferenceCache.configFiles
  rw [← findFiles_restrict alike.formed.distinct covers,
    ← findFiles_restrict alike.formed_right.distinct (covers.congr alike.workingDirectory)]
  exact alike.restrict.findFiles named.restrict path _

omit named in
theorem state_alike {cache : ReferenceCache} {addon : Text} (covers : first.Covers portion (cache.entry addon)) :
    cache.state addon second = cache.state addon first := by
  have marker : second.readText ((cache.entry addon).join markerName) =
      first.readText ((cache.entry addon).join markerName) := by
    simp only [FileTree.readText, FileTree.readBytes, alike.find (covers.join isName_markerName).passed]
  rw [ReferenceCache.state, ReferenceCache.state, FileTree.isDirectory, FileTree.isDirectory, alike.find covers.passed]
  simp only [marker]

end Alike

/-! ### What tools do -/

/-- What a tool reads and where it writes matter to it, and nothing else. -/
theorem SameFor.of_alikeOn {input : Path} {target : Location} {own : Location → Prop} (alike : AlikeOn portion first second)
    (reads : first.Covers portion input) (owns : ∀ place, own place → portion place)
    (ways : ∀ place, place <+: target → portion place) : SameFor input target own first second where
  formed := alike.formed
  formed_right := alike.formed_right
  workingDirectory := alike.workingDirectory
  input := alike.find reads.passed
  atOwn place isOwn := alike.entryAt? place (owns place isOwn)
  onWay place isPrefix := .inl (alike.entryAt? place (ways place isPrefix))

/-- A binary config below extraction directories is found by names. -/
theorem exists_descend_of_mem_binaries {origin binary : Path} (named : tree.Named)
    (areNamed : ∀ directory ∈ directories, ∃ stem, Path.IsName stem ∧ directory = origin.join stem)
    (member : binary ∈ (allConfigs directories tree).binaries) :
    ∃ names, names ≠ [] ∧ (∀ name ∈ names, Path.IsName name) ∧ binary = origin.descend names := by
  rcases List.mem_flatMap.1 member with ⟨directory, isDirectory, found⟩
  rcases areNamed directory isDirectory with ⟨stem, isStem, rfl⟩
  rcases List.mem_filter.1 (List.mem_mergeSort.1 found) with ⟨inFiles, -⟩
  rcases exists_names_of_mem_filesBelow named inFiles with ⟨rfl, -⟩ | ⟨front, name, rfl, areNames, isName⟩
  · exact ⟨[stem], List.cons_ne_nil _ _, List.forall_mem_singleton.2 isStem, rfl⟩
  · refine ⟨stem :: (front ++ [name]), List.cons_ne_nil _ _, ?_, ?_⟩
    · exact List.forall_mem_cons.2 ⟨isStem, List.forall_mem_append.2 ⟨areNames, List.forall_mem_singleton.2 isName⟩⟩
    · rw [← List.cons_append, Path.descend_append, Path.descend_singleton]
      rfl

/-! ### What is read -/

/-- Whether a config is read alike from all trees that are alike in a portion of the places. -/
def ReadsWithin (reader : ConfigReader) (portion : Location → Prop) (tree : FileTree) (config : Path) : Prop :=
  ∀ other, AlikeOn portion tree other → readResult reader other config = readResult reader tree config

theorem ReadsWithin.of_alikeOn {reader : ConfigReader} {config : Path} (within : ReadsWithin reader portion first config)
    (alike : AlikeOn portion first second) : ReadsWithin reader portion second config :=
  fun other more => (within other (alike.trans more)).trans (within second alike).symm

theorem ReadsWithin.mono {reader : ConfigReader} {config : Path} {larger : Location → Prop}
    (within : ReadsWithin reader portion tree config) (mono : ∀ place, portion place → larger place) :
    ReadsWithin reader larger tree config :=
  fun other alike => within other (alike.mono mono)

theorem parsedConfigs_alike {reader : ConfigReader} {configs : List Path} (alike : AlikeOn portion first second)
    (reads : ∀ config ∈ configs, ReadsWithin reader portion first config) :
    parsedConfigs reader second configs = parsedConfigs reader first configs :=
  List.filterMap_congr fun config member => congrArg Except.toOption (reads config member second alike)

/-- A config is read alike wherever the files are alike that it and the files included in it may include. -/
theorem readsWithin_plainReader {config : Path}
    (within : ∀ passed ∈ Location.visited (tree.start config) config.written, portion passed)
    (includes : ∀ inclusion ∈ inclusions tree (config.parent?.getD config) maxInclusionDepth config {},
      ∀ candidate ∈ inclusionCandidates inclusion.1 (config.parent?.getD config) inclusion.2,
        ∀ passed ∈ Location.visited (tree.start candidate) candidate.written, portion passed) :
    ReadsWithin plainReader portion tree config := by
  intro other alike
  have lines : ∀ file : Path, (∀ passed ∈ Location.visited (tree.start file) file.written, portion passed) →
      sourceLines other file = sourceLines tree file := by
    intro file inside
    rw [sourceLines, sourceLines, FileTree.readText, FileTree.readText, FileTree.readBytes, FileTree.readBytes,
      alike.find inside]
  apply readConfig_congr (lines config within)
  intro inclusion carried
  have isFile : ∀ candidate ∈ inclusionCandidates inclusion.1 (config.parent?.getD config) inclusion.2,
      other.isFile candidate = tree.isFile candidate := fun candidate member => by
    rw [FileTree.isFile, FileTree.isFile, alike.find (includes inclusion carried candidate member)]
  refine ⟨List.find?_congr isFile, fun target resolved => ?_⟩
  exact lines target (includes inclusion carried target (List.mem_of_find?_eq_some resolved))

namespace AddonWork

section Tools

variable {archive binary origin : Path} (disciplined : Disciplined work.environment.tools)
  (alike : AlikeOn portion first second)

include disciplined alike

/-- An archive is extracted alike to trees that are alike on it and where it is extracted to. -/
theorem extraction_alike (reads : first.Covers portion archive)
    (writes : first.Covers portion (extractionDirectory origin archive)) :
    KeepsAlike portion ((work.extractionDuty origin).action archive) first second := by
  have repeats : Repeats ((work.extractionDuty origin).action archive) first second :=
    Duty.repeats_action (disciplined.goByInput.extract _ _ _ _ _ (.of_alikeOn alike reads writes.below writes.above))
  have left := disciplined.extractsBelow archive (extractionDirectory origin archive)
    work.environment.settings.extractTimeout first alike.formed
  have right := disciplined.extractsBelow archive (extractionDirectory origin archive)
    work.environment.settings.extractTimeout second alike.formed_right
  refine ⟨repeats.answer, ⟨left.formed, right.formed, ?_, fun place inside => ?_⟩, left.workingDirectory⟩
  · exact right.workingDirectory.trans (alike.workingDirectory.trans left.workingDirectory.symm)
  · exact repeats.entryAt? place (alike.entryAt? place inside)

/-- A binary config is converted alike in trees that are alike where it is. -/
theorem conversion_alike (reads : first.Covers portion binary)
    (writes : ∀ place, place <+: first.location (convertedConfig binary) → portion place) :
    KeepsAlike portion (work.conversionDuty.action binary) first second := by
  have repeats : Repeats (work.conversionDuty.action binary) first second :=
    Duty.repeats_action (disciplined.goByInput.convert _ _ _ _ _ (.of_alikeOn alike reads writes writes))
  rcases disciplined.convertsInPlace binary (convertedConfig binary) work.environment.settings.convertTimeout first
    alike.formed with ⟨formed, start, -⟩
  rcases disciplined.convertsInPlace binary (convertedConfig binary) work.environment.settings.convertTimeout second
    alike.formed_right with ⟨formedRight, startRight, -⟩
  refine ⟨repeats.answer, ⟨formed, formedRight, ?_, fun place inside => ?_⟩, start⟩
  · exact startRight.trans (alike.workingDirectory.trans start.symm)
  · exact repeats.entryAt? place (alike.entryAt? place inside)

/-- The archives of an addon are extracted alike where its own places are alike. -/
theorem extractions_alike {files : List Path} (named : first.Named) (owned : work.OwnedBy temp first portion)
    (listed : work.listArchives first = .ok (some files))
    (stems : ∀ archive ∈ files, ∃ stem, archive.fileStem? = some stem ∧ Path.IsName stem) :
    KeepsAlike portion (doEach (work.extractionDuty (work.extractedAt temp)).action files) first second := by
  rcases exists_container listed with ⟨container, isContainer, areArchives⟩
  rcases exists_join_of_archiveContainer? named isContainer with ⟨name, isName, rfl⟩
  apply alike.doEach
  intro archive member tree other alike same
  rcases exists_join_of_archives named.entries areArchives member with ⟨archiveName, isArchiveName, rfl⟩
  rcases stems _ member with ⟨stem, isStem, isStemName⟩
  apply extraction_alike disciplined alike
  · exact ((owned.directory.congr same).join isName).join isArchiveName
  · rw [extractionDirectory_eq isStem]
    exact (owned.extracted.congr same).join isStemName

/-- Where archives are extracted alike, the same is to be read after the conversions, and among like files. -/
theorem convertedSources_alike (named : first.Named) (covers : first.Covers portion origin) (nonempty : origin.text ≠ [])
    (areNamed : ∀ directory ∈ directories, ∃ stem, Path.IsName stem ∧ directory = origin.join stem) :
    (work.convertedSources directories second).1 = (work.convertedSources directories first).1 ∧
      AlikeOn portion (work.convertedSources directories first).2 (work.convertedSources directories second).2 := by
  have found : allConfigs directories second = allConfigs directories first := by
    apply allConfigs_alike alike named
    intro directory member
    rcases areNamed directory member with ⟨stem, isName, rfl⟩
    exact covers.join isName
  have isName : Path.IsName textConfigName := by decide
  have converts : KeepsAlike portion (doEach work.conversionDuty.action (allConfigs directories first).binaries)
      first second := by
    apply alike.doEach
    intro binary member tree other alike same
    rcases exists_descend_of_mem_binaries named areNamed member with ⟨names, someName, areNames, rfl⟩
    have covers := covers.congr same
    apply conversion_alike disciplined alike (covers.descend areNames)
    intro place isPrefix
    rw [convertedConfig, location_withFileName_descend nonempty someName areNames isName] at isPrefix
    rcases List.prefix_or_prefix_of_prefix isPrefix (List.prefix_append _ _) with above | below
    · exact covers.above place above
    · exact covers.below place below
  unfold convertedSources
  simp only [found, converts.answer]
  exact ⟨trivial, converts.alike⟩

variable (named : first.Named) (isAddon : Path.IsName work.addon.name) (owned : work.OwnedBy temp first portion)
  (one : HasOneContainer first work.addon.directory)
  (stems : ∀ files, work.listArchives first = .ok (some files) →
    ∀ archive ∈ files, ∃ stem, archive.fileStem? = some stem ∧ Path.IsName stem)

include named isAddon owned one stems

/-- Where an addon has its own places alike, the same is to be read for it, and among like files. -/
theorem sources_alike : (work.sources temp second).1 = (work.sources temp first).1 ∧
    AlikeOn portion (work.sources temp first).2 (work.sources temp second).2 := by
  have state := state_alike alike owned.entry
  unfold sources
  rw [state, listArchives_alike alike named owned.directory one]
  by_cases valid : work.cache.state work.addon.name first = .valid
  · rw [if_pos valid, if_pos valid]
    exact ⟨cachedConfigs_alike alike named owned.entry, alike⟩
  rw [if_neg valid, if_neg valid]
  cases listed : work.listArchives first with
  | error failure => exact ⟨rfl, alike⟩
  | ok found =>
      cases found with
      | none => exact ⟨rfl, alike⟩
      | some files =>
          have areStems := stems files listed
          have extracts := extractions_alike disciplined alike named owned listed areStems
          rcases extracts with ⟨-, trees, start⟩
          apply convertedSources_alike disciplined trees _ (owned.extracted.congr start)
          · exact (endsInName_extractionRoot work.cache temp isAddon).text_ne_nil
          · intro directory member
            rcases List.mem_map.1 member with ⟨archive, isArchive, rfl⟩
            rcases areStems archive isArchive with ⟨stem, isStem, isStemName⟩
            exact ⟨stem, isStemName, extractionDirectory_eq isStem⟩
          · exact ⟨trees.formed.named, start ▸ named.start⟩

/-- Where an addon has its own places alike, the same is read for it if nothing else is looked at. -/
theorem readings_alike (reads : ∀ config ∈ (work.sources temp first).1,
      ReadsWithin work.environment.reader portion (work.sources temp first).2 config) :
    work.readings temp second = work.readings temp first := by
  rcases sources_alike disciplined alike named isAddon owned one stems with ⟨configs, trees⟩
  rw [readings, readings, configs]
  exact parsedConfigs_alike trees reads

end Tools

end AddonWork

end AddonIndex.Indexing
