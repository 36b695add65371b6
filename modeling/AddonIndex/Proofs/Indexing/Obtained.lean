import AddonIndex.Proofs.Indexing.Configs
import AddonIndex.Proofs.Indexing.Course

/-!
# Configs that were not obtained

A binary config that cannot be converted has no text, but a text config may stand
beside it, left over or written in part. The run that fails to convert does not
read it. It saves it, however, like any other text among the extracted files, and
the next run, which is served from the saved entry, reads it.
-/

namespace AddonIndex.Indexing

open Activity FileTree Reference

variable {work : AddonWork} {scene before after : Scene}

/-! ## Conversions one after another -/

/-- What the conversions that were noted are to be read from. -/
def Deed.noted? : Deed → Option Path
  | noted file => some file
  | _ => none

namespace AddonWork

/-- Conversions change the files and the list of texts, and nothing else. -/
theorem scene_of_along {deeds : List Deed} (along : Along work.conversionDuty deeds before after) :
    after.extracted = before.extracted ∧ after.configs = before.configs ∧
      after.converted = before.converted ++ (deeds.filterMap Deed.noted?).map convertedConfig := by
  induction deeds generalizing before with
  | nil =>
      obtain rfl : after = before := along
      simp
  | cons deed rest ih =>
      obtain ⟨middle, acts, later⟩ := along
      obtain ⟨extracted, configs, converted⟩ := ih later
      rw [extracted, configs, converted]
      cases deed with
      | called file succeeded =>
          obtain ⟨-, rfl⟩ := acts
          exact ⟨rfl, rfl, rfl⟩
      | noted file =>
          obtain rfl : middle = _ := acts
          refine ⟨rfl, rfl, ?_⟩
          simp [conversionDuty, Deed.noted?]
      | complained =>
          obtain rfl : middle = _ := acts
          exact ⟨rfl, rfl, rfl⟩

end AddonWork

/-- A worker that converts notes exactly those files whose conversion succeeded, and calls the
converter for no others than its own. -/
theorem Habit.Follows.noted_iff {files : List Path} {result : Option Unit} {deeds : List Deed}
    (follows : AddonWork.conversionHabit.Follows files result deeds) (file : Path) :
    .noted file ∈ deeds ↔ .called file true ∈ deeds := by
  induction follows with
  | done => simp
  | succeeded _ ih => simp [AddonWork.conversionHabit, ih]
  | failed _ ih => simp [AddonWork.conversionHabit, ih]
  | aborted => simp [AddonWork.conversionHabit]

theorem Habit.Follows.mem_of_called {files : List Path} {result : Option Unit} {deeds : List Deed}
    (follows : AddonWork.conversionHabit.Follows files result deeds) {file : Path} {succeeded : Bool}
    (called : .called file succeeded ∈ deeds) : file ∈ files := by
  induction follows with
  | done => simp at called
  | succeeded _ ih =>
      simp only [AddonWork.conversionHabit, List.cons_append, List.mem_cons, List.nil_append,
        reduceCtorEq, Deed.called.injEq, false_or] at called
      rcases called with ⟨rfl, -⟩ | later
      · exact List.mem_cons_self
      · exact List.mem_cons_of_mem _ (ih later)
  | failed _ ih =>
      simp only [AddonWork.conversionHabit, List.cons_append, List.mem_cons, List.nil_append,
        reduceCtorEq, Deed.called.injEq, false_or] at called
      rcases called with ⟨rfl, -⟩ | later
      · exact List.mem_cons_self
      · exact List.mem_cons_of_mem _ (ih later)
  | aborted =>
      simp only [AddonWork.conversionHabit, List.mem_singleton, Deed.called.injEq] at called
      rw [called.1]
      exact List.mem_cons_self

/-- Whether deeds are the calls of the converter for the binary configs of a scene, together with
what follows from them. -/
structure Conversions (work : AddonWork) (before : Scene) (deeds : List Deed) (after : Scene) : Prop where
  along : ∃ errors, Along work.conversionDuty deeds
    { before with converted := (allConfigs before.extracted before.tree).texts } { after with errors }
  isBinary : ∀ binary succeeded, .called binary succeeded ∈ deeds →
    binary ∈ (allConfigs before.extracted before.tree).binaries
  noted_iff : ∀ binary, .noted binary ∈ deeds ↔ .called binary true ∈ deeds

theorem AddonWork.ConvertsAll.exists_conversions (converts : work.ConvertsAll before after) :
    ∃ deeds, Conversions work before deeds after := by
  obtain ⟨records, deeds, ended, files, follows, perm, along, rfl⟩ := converts
  refine ⟨deeds, ⟨ended.errors, along⟩, fun binary succeeded called => ?_, fun binary => ?_⟩
  · obtain ⟨record, member, inDeeds⟩ := List.mem_flatMap.1 (perm.mem_iff.1 called)
    exact files.mem_iff.1 (List.mem_flatMap.2 ⟨record, member, (follows record member).mem_of_called inDeeds⟩)
  · rw [perm.mem_iff, perm.mem_iff, List.mem_flatMap, List.mem_flatMap]
    exact exists_congr fun record => and_congr_right fun member => (follows record member).noted_iff binary

/-- The texts to read are those that need no conversion and those of conversions that succeeded. -/
theorem Conversions.mem_converted_iff {deeds : List Deed} (conversions : Conversions work before deeds after)
    {config : Path} :
    config ∈ after.converted ↔ config ∈ (allConfigs before.extracted before.tree).texts ∨
      ∃ binary, .called binary true ∈ deeds ∧ AddonWork.convertedConfig binary = config := by
  obtain ⟨errors, along⟩ := conversions.along
  obtain ⟨-, -, converted⟩ := AddonWork.scene_of_along along
  have converted : after.converted = _ := converted
  rw [converted, List.mem_append, List.mem_map]
  refine or_congr_right (exists_congr fun binary => and_congr_left fun _ => ?_)
  rw [← conversions.noted_iff, List.mem_filterMap]
  constructor
  · rintro ⟨deed, member, same⟩
    cases deed <;> simp only [Deed.noted?, Option.some.injEq, reduceCtorEq] at same
    obtain rfl := same
    exact member
  · exact fun member => ⟨_, member, rfl⟩

/-! ## Files during conversions -/

/-- Whether a converter changes nothing but the file that it is to write. -/
def ConvertsInPlace (tools : ArchiveTools) : Prop :=
  ∀ binary text limit tree, tree.WellFormed →
    (tools.convert binary text limit tree).tree.WellFormed ∧
    (tools.convert binary text limit tree).tree.workingDirectory = tree.workingDirectory ∧
    ∀ place, place ≠ tree.location text →
      (tools.convert binary text limit tree).tree.entryAt? place = tree.entryAt? place

variable {origin : Path} {directories : List Path} {tree : FileTree}

theorem Rewrites.refl : Rewrites origin directories tree tree :=
  ⟨rfl, fun _ => .inl rfl⟩

/-- Calls of a converter that works in place change only what stands where it is to write. -/
theorem rewrites_of_along (inPlace : ConvertsInPlace work.environment.tools) (formed : tree.WellFormed)
    (ends : Path.EndsInName origin) {deeds : List Deed}
    (areBinary : ∀ binary succeeded, .called binary succeeded ∈ deeds →
      ∃ below, IsBinary tree origin directories below ∧ binary = origin.descend below)
    (rewrites : Rewrites origin directories tree before.tree) (formedBefore : before.tree.WellFormed)
    (along : Along work.conversionDuty deeds before after) :
    Rewrites origin directories tree after.tree ∧ after.tree.WellFormed := by
  induction deeds generalizing before with
  | nil =>
      obtain rfl : after = before := along
      exact ⟨rewrites, formedBefore⟩
  | cons deed rest ih =>
      obtain ⟨middle, acts, later⟩ := along
      have goesOn := @ih middle fun binary succeeded called =>
        areBinary binary succeeded (List.mem_cons_of_mem _ called)
      cases deed with
      | called file succeeded =>
          obtain ⟨-, rfl⟩ := acts
          obtain ⟨below, isBinary, rfl⟩ := areBinary file succeeded List.mem_cons_self
          obtain ⟨formedAfter, workingDirectory, elsewhere⟩ := inPlace (origin.descend below)
            (AddonWork.convertedConfig (origin.descend below))
            work.environment.settings.convertTimeout before.tree formedBefore
          refine goesOn ⟨workingDirectory.trans rewrites.workingDirectory, fun place => ?_⟩ formedAfter later
          by_cases target : place = before.tree.location (AddonWork.convertedConfig (origin.descend below))
          · refine .inr ⟨below, isBinary, ?_⟩
            have names : ∀ name ∈ conversion below, Path.IsName name :=
              IsChosen.names formed (.inr ⟨below, isBinary, rfl⟩)
            rw [target, rewrites.location, convertedConfig_extracted formed ends isBinary.1,
              location_descend tree _ names]
          · rw [show (work.conversionDuty.call (origin.descend below) before.tree).tree.entryAt? place = _
              from elsewhere place target]
            exact rewrites.entryAt? place
      | noted file =>
          obtain rfl : middle = _ := acts
          exact goesOn rewrites formedBefore later
      | complained =>
          obtain rfl : middle = _ := acts
          exact goesOn rewrites formedBefore later

section Separation

variable {cache : ReferenceCache} {temp addon : Text} {next : FileTree}

/-- Changes below the directory for extracted archives leave the entry and the archives separate. -/
theorem Separate.of_elsewhere (separate : Separate cache temp addon tree)
    (workingDirectory : next.workingDirectory = tree.workingDirectory)
    (elsewhere : ∀ place, ¬ tree.location cache.root ++ [temp] <+: place →
      next.entryAt? place = tree.entryAt? place) : Separate cache temp addon next := by
  have location : ∀ path, next.location path = tree.location path := location_congr workingDirectory
  have notBelow : ¬ tree.location cache.root ++ [temp] <+: tree.location cache.root := by
    intro isPrefix
    have length := isPrefix.length_le
    rw [List.length_append, List.length_singleton] at length
    omega
  obtain ⟨root, rooted⟩ := isDirectory_iff.1 separate.rooted
  refine ⟨separate.tempIsName, separate.isName, separate.differ, ?_, ?_, ?_, ?_⟩
  · exact isDirectory_iff.2 ⟨root, (separate.avoidsTemp.find_iff workingDirectory elsewhere).2 rooted⟩
  · rw [location, elsewhere _ notBelow, separate.there]
  · unfold Avoids
    rw [ReferenceCache.entryPlace, location, start, workingDirectory, ← start]
    exact separate.avoids
  · unfold Avoids
    rw [location, start, workingDirectory, ← start]
    exact separate.avoidsTemp

/-- The places of the entry and of the extracted archives stay separate during conversions. -/
theorem Separate.of_rewrites (separate : Separate cache temp addon tree)
    (rewrites : Rewrites (extractionRoot cache temp addon) directories tree next) :
    Separate cache temp addon next := by
  refine separate.of_elsewhere rewrites.workingDirectory fun place outside => ?_
  rcases rewrites.entryAt? place with same | ⟨binary, -, rfl⟩
  · exact same
  · rw [separate.location_eq] at outside
    exact absurd ⟨addon :: conversion binary, by simp⟩ outside

theorem SideBySide.of_rewrites (sideBySide : SideBySide (extractionRoot cache temp addon) directories tree)
    (separate : Separate cache temp addon tree) (formed : tree.WellFormed)
    (rewrites : Rewrites (extractionRoot cache temp addon) directories tree next) :
    SideBySide (extractionRoot cache temp addon) directories next where
  named := sideBySide.named
  noFile directory member := by
    obtain ⟨stem, isName, rfl⟩ := sideBySide.named directory member
    rw [← sideBySide.noFile _ member, Bool.eq_iff_iff, isFile_iff, isFile_iff]
    exact exists_congr fun place => exists_congr fun content => exists_congr fun executable =>
      rewrites.find_iff separate formed isName

end Separation

/-! ## The text beside a binary config -/

/-- Beside a binary config a run reads only texts of conversions that succeeded. -/
theorem Conversions.mem_converted_beside_iff {deeds : List Deed}
    (conversions : Conversions work before deeds after) (formed : before.tree.WellFormed)
    (ends : Path.EndsInName origin) (sideBySide : SideBySide origin before.extracted before.tree)
    {binary below : Location} (isBinary : IsBinary before.tree origin before.extracted binary)
    (areNames : ∀ name ∈ below, Path.IsName name) (beside : binary.dropLast = below.dropLast) :
    origin.descend below ∈ after.converted ↔
      ∃ other, IsBinary before.tree origin before.extracted other ∧ conversion other = below ∧
        .called (origin.descend other) true ∈ deeds := by
  rw [conversions.mem_converted_iff, mem_allTexts_iff formed sideBySide]
  constructor
  · rintro (⟨text, ⟨isText, alone⟩, same⟩ | ⟨path, called, same⟩)
    · obtain rfl := Path.descend_injective ends areNames (IsChosen.names formed (.inl ⟨isText, alone⟩))
        (congrArg Path.parts same)
      exact absurd beside (alone binary isBinary)
    · obtain ⟨other, otherIsBinary, rfl⟩ :=
        (mem_allBinaries_iff formed sideBySide).1 (conversions.isBinary path true called)
      rw [convertedConfig_extracted formed ends otherIsBinary.1] at same
      refine ⟨other, otherIsBinary, ?_, called⟩
      exact Path.descend_injective ends (IsChosen.names formed (.inr ⟨other, otherIsBinary, rfl⟩)) areNames
        (congrArg Path.parts same)
  · rintro ⟨other, otherIsBinary, rfl, called⟩
    exact .inr ⟨_, called, convertedConfig_extracted formed ends otherIsBinary.1⟩

/-- The directory below which the archives of an addon are extracted. -/
abbrev AddonWork.extractedAt (work : AddonWork) (temp : Text) : Path :=
  extractionRoot work.cache temp work.addon.name

/-- Whether the archives of an addon are extracted side by side, apart from its entry. -/
structure LaidOut (work : AddonWork) (temp : Text) (directories : List Path) (tree : FileTree) : Prop where
  formed : tree.WellFormed
  separate : Separate work.cache temp work.addon.name tree
  sideBySide : SideBySide (work.extractedAt temp) directories tree

theorem LaidOut.ends {temp : Text} (laidOut : LaidOut work temp directories tree) :
    Path.EndsInName (work.extractedAt temp) :=
  laidOut.separate.endsInName

/-- Conversions in place keep the layout. -/
theorem Conversions.laidOut {temp : Text} {deeds : List Deed}
    (conversions : Conversions work before deeds after)
    (inPlace : ConvertsInPlace work.environment.tools)
    (laidOut : LaidOut work temp before.extracted before.tree) :
    Rewrites (work.extractedAt temp) before.extracted before.tree after.tree ∧
      LaidOut work temp before.extracted after.tree := by
  obtain ⟨formed, separate, sideBySide⟩ := laidOut
  obtain ⟨errors, along⟩ := conversions.along
  have areBinary : ∀ binary succeeded, .called binary succeeded ∈ deeds → ∃ below,
      IsBinary before.tree (work.extractedAt temp) before.extracted below ∧
        binary = (work.extractedAt temp).descend below := fun binary succeeded called =>
    (mem_allBinaries_iff formed sideBySide).1 (conversions.isBinary binary succeeded called)
  obtain ⟨rewrites, formedAfter⟩ := rewrites_of_along inPlace formed separate.endsInName areBinary
    (by exact .refl) (by exact formed) along
  exact ⟨rewrites, formedAfter, separate.of_rewrites rewrites, sideBySide.of_rewrites separate formed rewrites⟩

/-- Whether one run converts, reads and saves the extracted configs of an addon, the last without an
error, and a later run with the same cache reads the addon from the saved entry. -/
structure Reread (work later : AddonWork) (configs : List Path) (answer : Bool)
    (start converted parsed saved begun ended : World) : Prop where
  converts : Completes work.addon work.convert start (.ok (.completed, configs)) converted
  parses : Completes work.addon (work.parse configs) converted .completed parsed
  saves : Completes work.addon work.save parsed .completed saved
  noError : saved.errors = parsed.errors
  sameCache : later.cache = work.cache
  sameName : later.addon.name = work.addon.name
  keeps : KeepsEntry work.cache work.addon.name saved.tree begun.tree
  reads : Completes later.addon later.readFromCache begun answer ended

/-- The configs that were read for an addon, if it is enrolled. -/
def World.configsOf (addon : Handle) (world : World) : Option (List ClassConfig.ParsedConfig) :=
  (world.scene addon).configs

theorem configs_progressOf {world : World} {addon : Handle} {configs : List ClassConfig.ParsedConfig}
    (enrolled : world.configsOf addon = some configs) : (world.progressOf addon).configs = configs := by
  have enrolled : world.progress[addon.index]?.map Progress.configs = some configs := enrolled
  obtain ⟨progress, there, rfl⟩ := Option.map_eq_some_iff.1 enrolled
  rw [World.progressOf, there, Option.getD_some]

/-- What can be read of the configs is added to those of the addon, and the files stay as they are. -/
theorem Completes.parse_reads {begun ended : World} {configs : List Path} {status : StageStatus}
    (completes : Completes work.addon (work.parse configs) begun status ended) :
    ended.tree = begun.tree ∧ ended.extracted = begun.extracted ∧
      ended.configsOf work.addon = (begun.configsOf work.addon).map
        (· ++ parsedConfigs work.environment.reader begun.tree configs) := by
  have scene := completes.parsed
  rw [foldl_read] at scene
  exact ⟨congrArg Scene.tree scene, congrArg Scene.extracted scene, congrArg Scene.configs scene⟩

namespace AddonWork

variable {later : AddonWork} {temp : Text} {configs : List Path} {answer : Bool}
  {start converted parsed saved begun ended : World}

/-- A run reads a text beside a binary config exactly if it comes from a conversion that
succeeded. The run that is served from the saved entry reads it exactly if it is there after the
conversions, wherever it comes from. -/
theorem text_read_iff (inPlace : ConvertsInPlace work.environment.tools)
    (laidOut : LaidOut work temp start.extracted start.tree)
    (reread : Reread work later configs answer start converted parsed saved begun ended) :
    ∃ deeds again, Conversions work (start.scene work.addon) deeds (converted.scene work.addon) ∧
      parsed.configsOf work.addon = (converted.configsOf work.addon).map
        (· ++ parsedConfigs work.environment.reader converted.tree configs) ∧
      answer = true ∧ ended.configsOf later.addon = (begun.configsOf later.addon).map
        (· ++ parsedConfigs later.environment.reader begun.tree again) ∧
      ∀ binary below, IsBinary start.tree (work.extractedAt temp) start.extracted binary →
        (∀ name ∈ below, Path.IsName name) → endsWith textConfigName below = true →
        binary.dropLast = below.dropLast →
        ((work.extractedAt temp).descend below ∈ configs ↔
          ∃ other, IsBinary start.tree (work.extractedAt temp) start.extracted other ∧
            conversion other = below ∧ .called ((work.extractedAt temp).descend other) true ∈ deeds) ∧
        ((work.cache.entry work.addon.name).descend below ∈ again ↔
          IsText converted.tree (work.extractedAt temp) start.extracted below) := by
  obtain ⟨converts, parses, saves, noError, sameCache, sameName, keeps, reads⟩ := reread
  obtain ⟨convertsAll, rfl⟩ := converts.convertsAll
  obtain ⟨deeds, conversions⟩ := convertsAll.exists_conversions
  obtain ⟨-, laidOutAfter⟩ := conversions.laidOut inPlace laidOut
  -- Reading changes no files, so what is saved is what the conversions left.
  have readScene := parses.parsed
  rw [foldl_read] at readScene
  have sameTree : parsed.tree = converted.tree := congrArg Scene.tree readScene
  have sameExtracted : parsed.extracted = start.extracted := by
    obtain ⟨errors, along⟩ := conversions.along
    exact (congrArg Scene.extracted readScene).trans (scene_of_along along).1
  obtain ⟨isSaved, -⟩ := saves_of_save saves.saved noError
  change Saves _ _ parsed.extracted parsed.tree saved.tree at isSaved
  rw [sameTree, sameExtracted] at isSaved
  have stored := stored_of_saves laidOutAfter.formed laidOutAfter.separate laidOutAfter.sideBySide
    isSaved keeps
  obtain ⟨belows, -, members, files⟩ := stored.configFiles_eq laidOutAfter.formed.distinct
  have valid := stored.valid
  rw [← sameCache, ← sameName] at valid
  obtain ⟨isTrue, again⟩ := reads.readFromCache valid
  rw [sameCache, sameName, files, foldl_read] at again
  refine ⟨deeds, Path.sort (belows.map (work.cache.entry work.addon.name).descend), conversions,
    congrArg Scene.configs readScene, isTrue, congrArg Scene.configs again, ?_⟩
  intro binary below isBinary areNames isText beside
  constructor
  · rw [Path.sort, List.mem_mergeSort]
    exact conversions.mem_converted_beside_iff laidOut.formed laidOut.ends laidOut.sideBySide isBinary
      areNames beside
  · refine Iff.trans ?_ (members below)
    rw [Path.sort, List.mem_mergeSort, List.mem_map]
    constructor
    · rintro ⟨other, member, same⟩
      have otherNames : ∀ name ∈ other, Path.IsName name := by
        obtain ⟨⟨stem, names, rfl, rest⟩, -⟩ := (members other).1 member
        have extracted : Extracted converted.tree (work.extractedAt temp) start.extracted (stem :: names) :=
          ⟨stem, names, rfl, rest⟩
        exact (extracted.names laidOutAfter.formed).2
      obtain rfl := Path.descend_injective
        (Path.endsInName_join work.cache.root laidOut.separate.isName) otherNames areNames
        (congrArg Path.parts same)
      exact member
    · exact fun member => ⟨below, member, rfl⟩

end AddonWork

/-! ## A text that is left over -/

/-- Tools of which the extractor leaves a binary config and an empty text config side by side, and
the converter always fails. -/
def failingTools : ArchiveTools where
  check tree := { tree, reply := .outcome .success }
  extract _ directory _ tree :=
    let operation : FileOp Unit := do
      FileOp.makeDirectories directory
      FileOp.writeBytes (directory.join binaryConfigName) ByteArray.empty
      FileOp.writeBytes (directory.join textConfigName) ByteArray.empty
    { tree := (operation.run tree).1, reply := .outcome .success }
  convert _ _ _ tree := { tree, reply := .outcome (.failed 1 []) }

theorem convertsInPlace_failingTools : ConvertsInPlace failingTools :=
  fun _ _ _ _ formed => ⟨formed, rfl, fun _ _ => rfl⟩

/-- The work on an addon with these tools. -/
def failingWork : AddonWork :=
  { environment := { tools := failingTools }, cache := ⟨"ref"⟩, addon := ⟨0, "mods/@A"⟩ }

/-- A world in which one archive of the addon is extracted. -/
def leftOver : World where
  tree := { entries := [(["ref".toList], .directory), (["ref".toList, "temp".toList], .directory),
    (["ref".toList, "temp".toList, "@A".toList], .directory),
    (["ref".toList, "temp".toList, "@A".toList, "main".toList], .directory),
    (["ref".toList, "temp".toList, "@A".toList, "main".toList, binaryConfigName],
      .file ByteArray.empty false),
    (["ref".toList, "temp".toList, "@A".toList, "main".toList, textConfigName],
      .file ByteArray.empty false)] }
  handles := [failingWork.addon]
  progress := [{}]
  extracted := ["ref/temp/@A/main"]

theorem laidOut_leftOver : LaidOut failingWork "temp" leftOver.extracted leftOver.tree where
  formed := wellFormed_of_entries (by decide) (by decide) (by decide)
  separate :=
    { tempIsName := by decide
      isName := by decide
      differ := by decide
      rooted := by decide
      there := rfl
      avoids := by decide
      avoidsTemp := by decide }
  sideBySide :=
    { named := fun directory member => ⟨"main".toList, by decide, List.mem_singleton.1 member⟩
      noFile := by decide }

/-- The worlds after the stages of a run, and after a run that is served from its entry. -/
def leftConverted : World := (failingWork.convert.run leftOver).1
def leftParsed : World := ((failingWork.parse []).run leftConverted).1
def leftSaved : World := (failingWork.save.run leftParsed).1
def leftBegun : World := { leftOver with tree := leftSaved.tree }
def leftRead : World := (failingWork.readFromCache.run leftBegun).1

theorem reread_leftOver : Reread failingWork failingWork [] true leftOver leftConverted leftParsed leftSaved
    leftBegun leftRead where
  converts := completes_run (by decide) (by decide +kernel) (by decide +kernel)
  parses := completes_run (by decide +kernel) (by decide) (by decide +kernel)
  saves := completes_run (by decide +kernel) (by decide +kernel) (by decide +kernel)
  noError := by decide +kernel
  sameCache := rfl
  sameName := rfl
  keeps := .refl (wellFormed_of_entries (by decide +kernel) (by decide +kernel) (by decide +kernel))
  reads := completes_run (by decide) (by decide +kernel) (by decide +kernel)

theorem isBinary_leftOver : IsBinary leftOver.tree (failingWork.extractedAt "temp") leftOver.extracted
    ["main".toList, binaryConfigName] :=
  ⟨⟨"main".toList, [binaryConfigName], rfl, by decide, by decide, by decide,
    by decide⟩, by decide⟩

theorem isText_leftConverted : IsText leftConverted.tree (failingWork.extractedAt "temp") leftOver.extracted
    ["main".toList, textConfigName] :=
  ⟨⟨"main".toList, [textConfigName], rfl, by decide, by decide, by decide +kernel,
    by decide +kernel⟩, by decide⟩

/-- The run that fails to convert reads no text, and the run after it reads the one that was left. -/
theorem text_read_iff_leftOver :
    ∃ deeds again,
      Conversions failingWork (leftOver.scene failingWork.addon) deeds (leftConverted.scene failingWork.addon) ∧
        leftRead.configsOf failingWork.addon = (leftBegun.configsOf failingWork.addon).map
          (· ++ parsedConfigs plainReader leftBegun.tree again) ∧
        (failingWork.cache.entry failingWork.addon.name).descend ["main".toList, textConfigName] ∈ again := by
  obtain ⟨deeds, again, conversions, -, -, isRead, iff⟩ :=
    AddonWork.text_read_iff convertsInPlace_failingTools laidOut_leftOver reread_leftOver
  refine ⟨deeds, again, conversions, isRead, ?_⟩
  exact (iff _ _ isBinary_leftOver (by decide) (by decide) (by decide)).2.2 isText_leftConverted

/-- The files before the first run: one addon with one archive. -/
def archivedTree : FileTree where
  entries := [(["mods".toList], .directory), (["mods".toList, "@A".toList], .directory),
    (["mods".toList, "@A".toList, "addons".toList], .directory),
    (["mods".toList, "@A".toList, "addons".toList, "main.pbo".toList], .file ByteArray.empty false)]

/-- The world after a run over these addons whose conversions all fail. -/
def failingRun (tree : FileTree) : World :=
  World.afterRun { tree } { tools := failingTools }
    { roots := ["mods".toList], referenceDirectory := "ref".toList, denied := [], allowed := [] } none

/-- The paths of the published configs of each addon. -/
def publishedPaths (world : World) : List (List Path) :=
  world.catalog.addons.map fun addon => addon.configs.map (·.path)

/-- The text that is left over beside a failing conversion is not published by the run itself but by
the next one. -/
theorem left_over_text_published :
    (∀ binary text limit tree,
      (failingTools.convert binary text limit tree).reply = .outcome (.failed 1 [])) ∧
    publishedPaths (failingRun archivedTree) = [[]] ∧
    publishedPaths (failingRun (failingRun archivedTree).tree) =
      [[⟨"ref/@A/main/config.cpp".toList⟩]] :=
  ⟨fun _ _ _ _ => rfl, by decide +kernel, by decide +kernel⟩

end AddonIndex.Indexing

/-!
## Work without errors

If no error is reported then every call of a tool was a success, every config was
read, and every file was saved. The deeds of all workers are then those of the
files, in some order.
-/

namespace AddonIndex.Indexing

open Activity

variable {work : AddonWork} {before after : Scene} {duty : Duty} {habit : Habit} {deeds : List Deed}
  {files : List Path}

/-! ### Workers -/

/-- Every complaint is an error. -/
theorem errors_of_along (keeps : ∀ file scene, (duty.note file scene).errors = scene.errors)
    (along : Along duty deeds before after) :
    before.errors ≤ after.errors ∧ (.complained ∈ deeds → before.errors < after.errors) := by
  induction deeds generalizing before with
  | nil =>
      obtain rfl : after = before := along
      exact ⟨Nat.le_refl _, nofun⟩
  | cons deed rest ih =>
      obtain ⟨middle, acts, later⟩ := along
      obtain ⟨grows, complained⟩ := ih later
      cases deed with
      | called file succeeded =>
          obtain ⟨-, rfl⟩ := acts
          exact ⟨grows, by simpa using complained⟩
      | noted file =>
          obtain rfl : middle = _ := acts
          rw [keeps] at grows complained
          exact ⟨grows, by simpa using complained⟩
      | complained =>
          obtain rfl : middle = _ := acts
          exact ⟨Nat.le_of_succ_le grows, fun _ => grows⟩

/-- A worker that neither complains nor is aborted has succeeded with each of its files. -/
theorem Habit.Follows.eq_of_quiet (complains : ∀ file, .complained ∈ habit.failed file)
    {result : Option Unit} (follows : habit.Follows files result deeds) (ended : result ≠ none)
    (quiet : .complained ∉ deeds) : deeds = files.flatMap habit.succeeded := by
  induction follows with
  | done => rfl
  | succeeded _ ih =>
      rw [List.flatMap_cons, ih ended fun member => quiet (List.mem_append_right _ member)]
  | failed => exact absurd (List.mem_append_left _ (complains _)) quiet
  | aborted => exact absurd rfl ended

/-- Without an error, files that are shared out are all done with success, in some order. -/
theorem SharedOut.succeeded (shared : SharedOut duty habit files before after)
    (keeps : ∀ file scene, (duty.note file scene).errors = scene.errors)
    (complains : ∀ file, .complained ∈ habit.failed file) (noError : after.errors ≤ before.errors) :
    ∃ deeds, deeds.Perm (files.flatMap habit.succeeded) ∧ Along duty deeds before after := by
  obtain ⟨records, deeds, ended, jobs, follows, perm, along, rfl⟩ := shared
  obtain ⟨grows, complained⟩ := errors_of_along keeps along
  have noError : ended.errors + records.countP (fun record => record.result.isNone) ≤ before.errors := noError
  have noneAborted : records.countP (fun record => record.result.isNone) = 0 := by omega
  have quiet : .complained ∉ deeds := fun member => by
    have := complained member
    omega
  rw [noneAborted]
  refine ⟨deeds, ?_, along⟩
  have each : ∀ record ∈ records, record.marks = record.job.flatMap habit.succeeded := by
    intro record member
    refine (follows record member).eq_of_quiet complains (fun none => ?_) fun inDeeds => ?_
    · have isNone := List.countP_eq_zero.1 noneAborted record member
      rw [none] at isNone
      exact isNone rfl
    · exact quiet (perm.mem_iff.2 (List.mem_flatMap.2 ⟨record, member, inDeeds⟩))
  rw [List.flatMap_congr each, ← List.flatMap_assoc] at perm
  exact perm.trans (jobs.flatMap_right _)

/-- If each file is noted once when it is done, what is noted are the files. -/
theorem noted_perm (once : ∀ file, (habit.succeeded file).filterMap Deed.noted? = [file])
    (perm : deeds.Perm (files.flatMap habit.succeeded)) : (deeds.filterMap Deed.noted?).Perm files := by
  refine (perm.filterMap Deed.noted?).trans (List.Perm.of_eq ?_)
  rw [List.filterMap_flatMap, List.flatMap_congr fun file _ => once file]
  exact List.flatMap_singleton' files

/-- Without an error, every binary config is converted, and what is to be read are the texts that
need no conversion and those of all binary configs. -/
theorem AddonWork.ConvertsAll.of_noError (converts : work.ConvertsAll before after)
    (noError : after.errors ≤ before.errors) :
    ∃ deeds, Conversions work before deeds after ∧
      after.converted.Perm ((allConfigs before.extracted before.tree).texts ++
        (allConfigs before.extracted before.tree).binaries.map AddonWork.convertedConfig) := by
  obtain ⟨deeds, perm, along⟩ := SharedOut.succeeded converts (fun _ _ => rfl)
    (fun _ => by simp [AddonWork.conversionHabit]) noError
  have mem_iff : ∀ deed, deed ∈ deeds ↔ ∃ binary ∈ (allConfigs before.extracted before.tree).binaries,
      deed = .called binary true ∨ deed = .noted binary := by
    intro deed
    rw [perm.mem_iff, List.mem_flatMap]
    simp [AddonWork.conversionHabit]
  refine ⟨deeds, ⟨⟨after.errors, along⟩, fun binary succeeded called => ?_, fun binary => ?_⟩, ?_⟩
  · obtain ⟨other, member, same | same⟩ := (mem_iff _).1 called
    · cases same
      exact member
    · cases same
  · rw [mem_iff, mem_iff]
    simp
  · obtain ⟨-, -, converted⟩ := AddonWork.scene_of_along along
    rw [converted]
    exact ((noted_perm (fun _ => rfl) perm).map _).append_left _

theorem Conversions.keeps {deeds : List Deed} (conversions : Conversions work before deeds after) :
    after.extracted = before.extracted ∧ after.configs = before.configs := by
  obtain ⟨errors, along⟩ := conversions.along
  obtain ⟨extracted, configs, -⟩ := AddonWork.scene_of_along along
  exact ⟨extracted, configs⟩

/-! ### Stages -/

section Completed

variable {begun ended : World} {configs : List Path} {status : StageStatus}

/-- Without an error every config is read, and nothing else happens. -/
theorem Completes.reads_all (parses : Completes work.addon (work.parse configs) begun status ended)
    (noError : ended.errors ≤ begun.errors) :
    (∀ config ∈ configs, ∃ parsed, readResult work.environment.reader begun.tree config = .ok parsed) ∧
      ended.tree = begun.tree ∧ ended.extracted = begun.extracted ∧
      ended.configsOf work.addon = (begun.configsOf work.addon).map
        (· ++ parsedConfigs work.environment.reader begun.tree configs) := by
  have readScene := parses.parsed
  rw [foldl_read] at readScene
  have errors : ended.errors = begun.errors +
      configs.countP fun config => !(readResult work.environment.reader begun.tree config).isOk :=
    congrArg Scene.errors readScene
  have noneFailed : configs.countP
      (fun config => !(readResult work.environment.reader begun.tree config).isOk) = 0 := by omega
  refine ⟨fun config member => ?_, parses.parse_reads⟩
  have isOk := List.countP_eq_zero.1 noneFailed config member
  cases read : readResult work.environment.reader begun.tree config with
  | ok parsed => exact ⟨parsed, rfl⟩
  | error e =>
      rw [read] at isOk
      exact absurd rfl isOk

/-- Without an error every file is saved. -/
theorem Completes.saves_all (saves : Completes work.addon work.save begun .completed ended)
    (noError : ended.errors ≤ begun.errors) :
    Saves work.cache work.addon.name begun.extracted begun.tree ended.tree ∧
      ended.configsOf work.addon = begun.configsOf work.addon := by
  have same : ended.errors = begun.errors :=
    Nat.le_antisymm noError (saves.errors_le AddonWork.stages_save.follow)
  obtain ⟨isSaved, scene⟩ := saves_of_save saves.saved same
  refine ⟨isSaved, ?_⟩
  unfold World.configsOf
  rw [scene]

/-- From a valid entry all its configs are read, and nothing else happens. -/
theorem Completes.reads_entry {answer : Bool}
    (reads : Completes work.addon work.readFromCache begun answer ended)
    (valid : work.cache.state work.addon.name begun.tree = .valid) :
    ended.tree = begun.tree ∧ ended.configsOf work.addon = (begun.configsOf work.addon).map
      (· ++ parsedConfigs work.environment.reader begun.tree
        (ReferenceCache.configFiles (work.cache.entry work.addon.name) begun.tree)) := by
  obtain ⟨-, scene⟩ := reads.readFromCache valid
  rw [foldl_read] at scene
  exact ⟨congrArg Scene.tree scene, congrArg Scene.configs scene⟩

end Completed

end AddonIndex.Indexing
