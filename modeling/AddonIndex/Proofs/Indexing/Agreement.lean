import AddonIndex.Proofs.Indexing.Rereading
import AddonIndex.Proofs.Indexing.Unpacking

/-!
# What the next run publishes

A run that indexes an addon publishes the configs that it read among the
extracted archives. A later run reads them from the entry instead, and publishes
the same, the paths aside. This takes more than success of every stage: beside a
binary config there must be no text config of another spelling and no second
binary config, and whatever the configs include must be found among the files
that are kept.
-/

namespace AddonIndex.Indexing

open Activity ClassConfig FileTree Reference

variable {work : AddonWork} {temp : Text} {tree next : FileTree} {origin entry : Path}

/-- Whether two published addons have the same configs, below a path each, and the same definitions. -/
def Alike (origin entry : Path) (first second : Addon) : Prop :=
  (∃ found : List (Location × ConfigFile),
    first.configs = found.map (fun (below, file) => { file with path := origin.descend below }) ∧
    second.configs = found.map fun (below, file) => { file with path := entry.descend below }) ∧
  second.definitions = first.definitions

theorem parsedConfigs_cons {reader : ConfigReader} {config : Path} {parsed : ParsedConfig}
    (read : readResult reader tree config = .ok parsed) (rest : List Path) :
    parsedConfigs reader tree (config :: rest) = parsed :: parsedConfigs reader tree rest :=
  List.filterMap_cons_some (by rw [read]; rfl)

/-- Configs that are read alike are published alike. -/
theorem alike_of_reads {reader : ConfigReader} {belows : List Location} {handle again : Handle}
    {progress progressAgain : Progress}
    (each : ∀ below ∈ belows, ∃ parsed, readResult reader tree (origin.descend below) = .ok parsed ∧
      parsed.file.path = origin.descend below ∧
      readResult reader next (entry.descend below) = .ok (parsed.withPath (entry.descend below)))
    (reads : progress.configs = parsedConfigs reader tree (belows.map origin.descend))
    (readsAgain : progressAgain.configs = parsedConfigs reader next (belows.map entry.descend)) :
    Alike origin entry (Addon.ofHandle handle progress) (Addon.ofHandle again progressAgain) := by
  obtain ⟨found, parsed, parsedAgain⟩ : ∃ found : List (Location × ParsedConfig),
      parsedConfigs reader tree (belows.map origin.descend) =
        found.map (fun item => item.2.withPath (origin.descend item.1)) ∧
      parsedConfigs reader next (belows.map entry.descend) =
        found.map fun item => item.2.withPath (entry.descend item.1) := by
    clear reads readsAgain
    induction belows with
    | nil => exact ⟨[], rfl, rfl⟩
    | cons below rest ih =>
        obtain ⟨parsed, read, path, readAgain⟩ := each below List.mem_cons_self
        obtain ⟨found, first, second⟩ := ih fun other member => each other (List.mem_cons_of_mem _ member)
        refine ⟨(below, parsed) :: found, ?_, ?_⟩
        · rw [List.map_cons, parsedConfigs_cons read, first, List.map_cons, ← path]
          rfl
        · rw [List.map_cons, parsedConfigs_cons readAgain, second]
          rfl
  refine ⟨⟨found.map fun item => (item.1, item.2.file), ?_, ?_⟩, ?_⟩
  · simp [Addon.ofHandle, reads, parsed, ParsedConfig.withPath]
  · simp [Addon.ofHandle, readsAgain, parsedAgain, ParsedConfig.withPath]
  · simp [Addon.ofHandle, reads, readsAgain, parsed, parsedAgain, ParsedConfig.withPath, List.foldl_map]

namespace AddonWork

variable {later : AddonWork} {configs : List Path} {tempRoot : Path}
  {start extracted converted parsed saved begun ended : World}

/-- The same work with other tools. -/
def withTools (work : AddonWork) (tools : ArchiveTools) : AddonWork :=
  { work with environment := { work.environment with tools } }

theorem parse_withTools (work : AddonWork) (tools : ArchiveTools) (configs : List Path) :
    (work.withTools tools).parse configs = work.parse configs := by
  have parseEach : (work.withTools tools).parseEach configs = work.parseEach configs := by
    induction configs with
    | nil => rfl
    | cons config rest ih =>
        unfold AddonWork.parseEach
        rw [ih]
        rfl
  unfold parse
  rw [parseEach]
  rfl

/-- An addon is read from its entry whatever the tools are. -/
theorem readFromCache_withTools (work : AddonWork) (tools : ArchiveTools) :
    (work.withTools tools).readFromCache = work.readFromCache := by
  unfold readFromCache
  simp only [parse_withTools]
  rfl

/-- Whether work on an addon begins: nothing is extracted or read yet, and its archives can be extracted. -/
structure Begins (work : AddonWork) (temp : Text) (start : World) : Prop where
  extractable : Extractable work temp start.tree
  nothing : start.extracted = []
  unread : start.configsOf work.addon = some []

/-- Whether later work on an addon finds the entry that was saved, and nothing is read yet. -/
structure Served (work later : AddonWork) (saved begun : World) : Prop where
  sameCache : later.cache = work.cache
  sameName : later.addon.name = work.addon.name
  keeps : KeepsEntry work.cache work.addon.name saved.tree begun.tree
  unread : begun.configsOf later.addon = some []

/-- An addon that was indexed without an error is read from its entry by the next run, which calls no
tool and publishes the same configs and definitions, the paths aside. -/
theorem published_alike (extractsBelow : ExtractsBelow work.environment.tools)
    (inPlace : ConvertsInPlace work.environment.tools)
    (plain : work.environment.reader = plainReader) (plainLater : later.environment.reader = plainReader)
    (begins : work.Begins temp start)
    (indexed : Indexed work (work.cache.root.join temp) configs start extracted converted parsed saved)
    (noError : saved.errors = start.errors)
    (unambiguous : Unambiguous converted.tree (work.extractedAt temp) extracted.extracted)
    (steadily : ∀ config ∈ configs, IncludesSteadily converted.tree (work.extractedAt temp)
      (Kept converted.tree (work.extractedAt temp) extracted.extracted) config)
    (served : work.Served later saved begun) {answer : Except RunFailure StageStatus}
    (reads : Completes later.addon (later.readOrIndex tempRoot) begun answer ended) :
    answer = .ok .completed ∧ ended.tree = begun.tree ∧
      (∀ tools, Completes later.addon ((later.withTools tools).readOrIndex tempRoot) begun answer ended) ∧
      Alike (work.extractedAt temp) (work.cache.entry work.addon.name)
        (Addon.ofHandle work.addon (saved.progressOf work.addon))
        (Addon.ofHandle later.addon (ended.progressOf later.addon)) := by
  obtain ⟨extracts, converts, parses, saves⟩ := indexed
  obtain ⟨extractable, nothing, unread⟩ := begins
  obtain ⟨sameCache, sameName, keeps, unreadLater⟩ := served
  -- No stage reports an error.
  have extractErrors := extracts.errors_le (stages_extract _).follow
  have convertErrors := converts.errors_le stages_convert.follow
  have parseErrors := parses.errors_le (stages_parse configs).follow
  have saveErrors := saves.errors_le stages_save.follow
  -- So the archives are extracted side by side, all binary configs are converted, and so on.
  obtain ⟨laidOut, distinct, unreadExtracted⟩ := Extracts.laidOut extracts.extracts extractsBelow
    extractable nothing (show extracted.errors ≤ start.errors by omega)
  obtain ⟨convertsAll, rfl⟩ := converts.convertsAll
  obtain ⟨deeds, conversions⟩ := convertsAll.exists_conversions
  obtain ⟨sameExtracted, unreadConverted⟩ := conversions.keeps
  obtain ⟨readable, sameTree, stillExtracted, areRead⟩ := parses.reads_all (by omega)
  obtain ⟨isSaved, stayRead⟩ := saves.saves_all (by omega)
  rw [plain] at readable areRead
  rw [sameTree, stillExtracted, show converted.extracted = extracted.extracted from sameExtracted] at isSaved
  obtain ⟨valid, belows, areConfigs, files, each⟩ := convertsAll.read_alike
    (show converted.errors ≤ extracted.errors by omega) inPlace laidOut distinct readable unambiguous
    steadily isSaved keeps
  -- The later run reads the entry.
  rw [← sameCache, ← sameName] at valid
  obtain ⟨rfl, readsEntry⟩ := reads.readOrIndex valid
  obtain ⟨treeAgain, readAgain⟩ := readsEntry.reads_entry valid
  refine ⟨rfl, treeAgain, fun tools => ?_, ?_⟩
  · rw [← readFromCache_withTools later tools] at readsEntry
    exact readsEntry.readOrIndex_of_cached
  · have areConfigs : Path.sort converted.converted = _ := areConfigs
    have unreadConverted : converted.configsOf work.addon = some [] :=
      unreadConverted.trans (unreadExtracted.trans unread)
    rw [areRead, unreadConverted, areConfigs] at stayRead
    rw [unreadLater, sameCache, sameName, files, plainLater] at readAgain
    exact alike_of_reads each (configs_progressOf stayRead) (configs_progressOf readAgain)

end AddonWork

/-- The work on an addon with a tool that unpacks one binary config. -/
def unpackingWork : AddonWork :=
  { environment := { tools := unpackingTools [(binaryConfigName, [])] "class A {};" }
    cache := ⟨"ref"⟩
    addon := ⟨0, "mods/@A"⟩ }

/-- The world before the one archive of the addon is extracted. -/
def packed : World where
  tree := { entries := [(["ref".toList], .directory), (["ref".toList, "temp".toList], .directory),
    (["mods".toList], .directory), (["mods".toList, "@A".toList], .directory),
    (["mods".toList, "@A".toList, "addons".toList], .directory),
    (["mods".toList, "@A".toList, "addons".toList, "main.pbo".toList], .file ByteArray.empty false)] }
  handles := [unpackingWork.addon]
  progress := [{}]

/-- The path of the one config after its conversion. -/
def unpackedConfig : Path := "ref/temp/@A/main/config.cpp"

/-- The worlds after the stages of a run, and after a run that follows. -/
def unpacked : World := ((unpackingWork.extract "ref/temp").run packed).1
def unpackedConverted : World := (unpackingWork.convert.run unpacked).1
def unpackedParsed : World := ((unpackingWork.parse [unpackedConfig]).run unpackedConverted).1
def unpackedSaved : World := (unpackingWork.save.run unpackedParsed).1
def unpackedBegun : World := { packed with tree := unpackedSaved.tree }
def unpackedRead : World := ((unpackingWork.readOrIndex "ref/temp").run unpackedBegun).1

theorem begins_packed : unpackingWork.Begins "temp" packed where
  extractable :=
    { formed := wellFormed_of_entries (by decide) (by decide) (by decide)
      separate :=
        { tempIsName := by decide
          isName := by decide
          differ := by decide
          rooted := by decide
          there := rfl
          avoids := by decide
          avoidsTemp := by decide }
      fresh := rfl
      stems := by
        intro container found isContainer areArchives
        have place : archiveContainer? unpackingWork.addon.directory packed.tree =
            .ok (some "mods/@A/addons") := by decide
        rw [place] at isContainer
        cases isContainer
        have listed : archives "mods/@A/addons" packed.tree = .ok [⟨"mods/@A/addons/main.pbo".toList⟩] := by
          decide +kernel
        rw [listed] at areArchives
        cases areArchives
        refine ⟨by decide, fun archive member => ?_⟩
        rw [List.mem_singleton.1 member]
        exact ⟨"main", by decide, by decide⟩ }
  nothing := rfl
  unread := rfl

theorem indexed_packed : Indexed unpackingWork "ref/temp" [unpackedConfig] packed unpacked
    unpackedConverted unpackedParsed unpackedSaved where
  extracts := completes_run (by decide) (by decide +kernel) (by decide +kernel)
  converts := completes_run (by decide +kernel) (by decide +kernel) (by decide +kernel)
  parses := completes_run (by decide +kernel) (by decide +kernel) (by decide +kernel)
  saves := completes_run (by decide +kernel) (by decide +kernel) (by decide +kernel)

/-- After the conversion the binary config and its text are there. -/
theorem extracted_unpacked {below : Location}
    (extracted : Extracted unpackedConverted.tree (unpackingWork.extractedAt "temp") unpacked.extracted
      below) :
    below = ["main".toList, binaryConfigName] ∨ below = ["main".toList, textConfigName] := by
  obtain ⟨stem, names, rfl, isName, member, -, listed⟩ := extracted
  have directories : unpacked.extracted = [⟨"ref/temp/@A/main".toList⟩] := by decide +kernel
  rw [directories, List.mem_singleton] at member
  have isStem : some stem = some "main".toList := by
    rw [← Path.fileName?_join (unpackingWork.extractedAt "temp") isName, member]
    decide
  cases isStem
  have files : unpackedConverted.tree.filesAt (unpackedConverted.tree.location
      (unpackingWork.extractedAt "temp") ++ ["main".toList]) = [[binaryConfigName], [textConfigName]] := by
    decide +kernel
  rw [files] at listed
  simpa using listed

theorem unambiguous_unpacked :
    Unambiguous unpackedConverted.tree (unpackingWork.extractedAt "temp") unpacked.extracted where
  single binary other isBinary otherIsBinary _ := by
    have only : ∀ below, IsBinary unpackedConverted.tree (unpackingWork.extractedAt "temp")
        unpacked.extracted below → below = ["main".toList, binaryConfigName] := by
      rintro below ⟨extracted, ends⟩
      rcases extracted_unpacked extracted with rfl | rfl
      · rfl
      · exact absurd ends (by decide)
    rw [only binary isBinary, only other otherIsBinary]
  spelled binary text _ isText _ := by
    rcases extracted_unpacked isText.1 with rfl | rfl
    · exact absurd isText.2 (by decide)
    · rfl

theorem served_unpacked : unpackingWork.Served unpackingWork unpackedSaved unpackedBegun where
  sameCache := rfl
  sameName := rfl
  keeps := .refl (wellFormed_of_entries (by decide +kernel) (by decide +kernel) (by decide +kernel))
  unread := rfl

/-- The text of the one binary config is published by the run that converts it and, with a path in the
entry, by the run that follows. -/
theorem published_alike_unpacked :
    (unpackedSaved.progressOf unpackingWork.addon).configs.map (·.file.path) = [unpackedConfig] ∧
      Alike "ref/temp/@A" "ref/@A"
        (Addon.ofHandle unpackingWork.addon (unpackedSaved.progressOf unpackingWork.addon))
        (Addon.ofHandle unpackingWork.addon (unpackedRead.progressOf unpackingWork.addon)) := by
  have includesNothing : inclusions unpackedConverted.tree (unpackedConfig.parent?.getD unpackedConfig)
      maxInclusionDepth unpackedConfig {} = [] := by decide +kernel
  have steadily : ∀ config ∈ [unpackedConfig], IncludesSteadily unpackedConverted.tree
      (unpackingWork.extractedAt "temp") (Kept unpackedConverted.tree (unpackingWork.extractedAt "temp")
        unpacked.extracted) config := by
    intro config member inclusion carried
    rw [List.mem_singleton.1 member, includesNothing] at carried
    cases carried
  have reads : Completes unpackingWork.addon (unpackingWork.readOrIndex "ref/temp") unpackedBegun
      (.ok .completed) unpackedRead := completes_run (by decide) (by decide +kernel) (by decide +kernel)
  obtain ⟨-, -, -, alike⟩ := AddonWork.published_alike (extractsBelow_unpackingTools _ _)
    (convertsInPlace_unpackingTools _ _) rfl rfl begins_packed indexed_packed (by decide +kernel)
    unambiguous_unpacked steadily served_unpacked reads
  exact ⟨by decide +kernel, alike⟩

/-- The world after a run over one addon, whose archive holds a config that includes a file which is
not kept. -/
def includingRun (tree : FileTree) : World :=
  World.afterRun { tree }
    { tools := unpackingTools [(textConfigName, "#include \"a.inc\"\n"), ("a.inc", "class A {};")] [] }
    { roots := ["mods".toList], referenceDirectory := "ref".toList, denied := [], allowed := [] } none

/-- Everything succeeds in the first run, which publishes the config, but the second run does not. -/
theorem including_config_not_published :
    (includingRun archivedTree).errors = 0 ∧
    publishedPaths (includingRun archivedTree) =
      [[⟨"ref/_addonIndexerTemp/@A/main/config.cpp".toList⟩]] ∧
    publishedPaths (includingRun (includingRun archivedTree).tree) = [[]] :=
  ⟨by decide +kernel, by decide +kernel, by decide +kernel⟩

end AddonIndex.Indexing

/-!
## The content of a saved entry

Whatever was in the entry of an addon before, a save of its archives that fails nowhere leaves the complete marker in
it, the scripts and headers of the archives, each below the name of its archive, and the directories above these, but
nothing else.
-/

namespace AddonIndex.Indexing

open FileTree Reference

variable {work : AddonWork} {begun ended : World} {status : StageStatus} {tree : FileTree} {place : Location}
  {saved : Location → ByteArray → Prop}

/-- Whether the entry at a place is complete and holds certain files: these are there with their content, and so are
the marker and the directories above the files, but nothing else. -/
structure HoldsExactly (place : Location) (saved : Location → ByteArray → Prop) (tree : FileTree) : Prop where
  files : ∀ below content, (∃ executable, tree.entryAt? (place ++ below) = some (.file content executable)) ↔
    below = [markerName] ∧ content = (markerText true).encode ∨ saved below content
  directories : ∀ below, tree.entryAt? (place ++ below) = some .directory ↔
    below = [] ∨ ∃ rest content, rest ≠ [] ∧ saved (below ++ rest) content

theorem holdsExactly_of_holds (holds : Holds place saved tree) {executable : Bool}
    (isMarker : tree.entryAt? (place ++ [markerName]) = some (.file (markerText true).encode executable)) :
    HoldsExactly place saved tree where
  files below content := by
    constructor
    · rintro ⟨flag, there⟩
      rcases holds.isSaved below content flag there with rfl | isSaved
      · rw [isMarker] at there
        cases there
        exact .inl ⟨rfl, rfl⟩
      · exact .inr isSaved
    · rintro (⟨rfl, rfl⟩ | isSaved)
      · exact ⟨executable, isMarker⟩
      · exact holds.holds below content isSaved
  directories below := by
    constructor
    · intro there
      by_cases top : below = []
      · exact .inl top
      · exact .inr (holds.isAbove below top there)
    · rintro (rfl | ⟨rest, content, nonempty, isSaved⟩)
      · rw [List.append_nil]
        exact holds.here
      · exact holds.above below rest content nonempty isSaved

/-- A save that reports no error completes. -/
theorem Completes.save_completed (saves : Completes work.addon work.save begun status ended)
    (noError : ended.errors ≤ begun.errors) : status = .completed := by
  have saved := saves.saved
  unfold Scene.save at saved
  split at saved
  · have ended_errors := congrArg (Scene.errors ∘ Prod.snd) saved
    change begun.errors + 1 = ended.errors at ended_errors
    omega
  · exact (Prod.mk.inj saved).1.symm

/-- A save that fails nowhere leaves in the entry exactly the files that are to be kept, and the complete marker. -/
theorem holdsExactly_of_save (formed : begun.tree.WellFormed)
    (hasPlace : HasPlace work.cache work.addon.name begun.tree)
    (apart : ApartFrom begun.tree (work.cache.entryPlace work.addon.name begun.tree) begun.extracted)
    (differ : DifferInName begun.extracted) (saves : Completes work.addon work.save begun status ended)
    (noError : ended.errors ≤ begun.errors) :
    HoldsExactly (work.cache.entryPlace work.addon.name ended.tree) (KeptFrom begun.tree begun.extracted) ended.tree ∧
      work.cache.state work.addon.name ended.tree = .valid := by
  obtain rfl := saves.save_completed noError
  rcases saves.saves_all noError with ⟨isSaved, -⟩
  rcases holds_keptFrom_of_saves formed hasPlace apart differ isSaved with
    ⟨within, -, found, ⟨executable, isMarker⟩, holds⟩
  have place : work.cache.entryPlace work.addon.name ended.tree = work.cache.entryPlace work.addon.name begun.tree :=
    within.location _
  refine ⟨place ▸ holdsExactly_of_holds holds isMarker, ?_⟩
  have isMarkerAfter : ended.tree.entryAt? (work.cache.markerPlace work.addon.name ended.tree) =
      some (.file (markerText true).encode executable) := by
    rw [ReferenceCache.markerPlace, place]
    exact isMarker
  exact ReferenceCache.state_eq_valid (place.symm ▸ found) isMarkerAfter

/-- A world in which an addon has two extracted archives, and an old entry. -/
def unsaved : World where
  tree := { entries := [(["ref".toList], .directory), (["ref".toList, "@A".toList], .directory),
    (["ref".toList, "@A".toList, markerName], .file (markerText true).encode false),
    (["ref".toList, "@A".toList, "old".toList], .directory),
    (["ref".toList, "@A".toList, "old".toList, "config.cpp".toList], .file ByteArray.empty false),
    (["ref".toList, "temp".toList], .directory), (["ref".toList, "temp".toList, "@A".toList], .directory),
    (["ref".toList, "temp".toList, "@A".toList, "main".toList], .directory),
    (["ref".toList, "temp".toList, "@A".toList, "main".toList, "logo.paa".toList], .file ByteArray.empty false),
    (["ref".toList, "temp".toList, "@A".toList, "main".toList, "fn".toList], .directory),
    (["ref".toList, "temp".toList, "@A".toList, "main".toList, "fn".toList, "init.SQF".toList], .file ⟨#[1, 2]⟩ true),
    (["ref".toList, "temp".toList, "@A".toList, "more".toList], .directory),
    (["ref".toList, "temp".toList, "@A".toList, "more".toList, "a.hpp".toList], .file ⟨#[3]⟩ false)] }
  handles := [unpackingWork.addon]
  progress := [{}]
  extracted := ["ref/temp/@A/main", "ref/temp/@A/more"]

/-- The world after the two archives were saved. -/
def resaved : World := (unpackingWork.save.run unsaved).1

theorem hasPlace_unsaved : HasPlace unpackingWork.cache unpackingWork.addon.name unsaved.tree where
  isName := by decide
  rooted := by decide
  there := rfl
  avoids := by decide

/-- Both scripts are in the entry then, and nothing of the old one. -/
theorem holdsExactly_resaved :
    (unsaved.tree.entryAt? ["ref".toList, "@A".toList, "old".toList] = some .directory ∧
      resaved.tree.entryAt? ["ref".toList, "@A".toList, "old".toList] = none) ∧
    KeptFrom unsaved.tree unsaved.extracted ["main".toList, "fn".toList, "init.SQF".toList] ⟨#[1, 2]⟩ ∧
    HoldsExactly ["ref".toList, "@A".toList] (KeptFrom unsaved.tree unsaved.extracted) resaved.tree ∧
    unpackingWork.cache.state "@A" resaved.tree = .valid := by
  have formed : unsaved.tree.WellFormed :=
    wellFormed_of_entries (by decide) (by decide) (by decide)
  have saves : Completes unpackingWork.addon unpackingWork.save unsaved .completed resaved :=
    completes_run (by decide) (by decide +kernel) (by decide +kernel)
  have apart : ApartFrom unsaved.tree (unpackingWork.cache.entryPlace unpackingWork.addon.name unsaved.tree)
      unsaved.extracted := ⟨by decide, by decide⟩
  have differ : DifferInName unsaved.extracted := by
    have names : unsaved.extracted.map Path.fileName? = [some "main".toList, some "more".toList] := by decide
    exact differInName_of_nodup (by rw [names]; decide)
  rcases holdsExactly_of_save formed hasPlace_unsaved apart differ saves (by decide +kernel) with ⟨holds, valid⟩
  have place : unpackingWork.cache.entryPlace unpackingWork.addon.name resaved.tree = ["ref".toList, "@A".toList] := by
    decide +kernel
  rw [place] at holds
  refine ⟨⟨?_, ?_⟩, ?_, holds, valid⟩
  · rfl
  · exact Option.isNone_iff_eq_none.1 (by decide +kernel)
  · exact ⟨_, List.mem_cons_self, "main".toList, _, by decide, rfl, by decide, by decide, true, rfl⟩

end AddonIndex.Indexing
