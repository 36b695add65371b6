import AddonIndex.Proofs.Indexing.Answers
import AddonIndex.Proofs.Indexing.Separation
import AddonIndex.Proofs.Reference.Neighbour

/-!
# Tools are called in any order

A tool may do what it likes with its input, as long as it goes by nothing but the input and what is where it writes.
Then archives of different stems can be extracted in any order: each comes out as if it was the only one. The same
holds of binary configs of which no two are in one directory.
-/

namespace AddonIndex.Indexing

open FileTree Location Reference

variable {work : AddonWork} {base tree first second : FileTree} {destination origin archive other : Path}
  {archives binaries directories : List Path} {target place : Location} {call : FileTree → ToolEffect}

/-! ## Tools that go by their input -/

/-- Whether two trees are alike in all that matters to a tool that reads a file and writes at places of its own, to
which a way leads down to a target. The second tree may have a directory on this way where the first one has nothing. -/
structure SameFor (input : Path) (target : Location) (own : Location → Prop) (first second : FileTree) : Prop where
  formed : first.WellFormed
  formed_right : second.WellFormed
  workingDirectory : second.workingDirectory = first.workingDirectory
  input : second.find input = first.find input
  atOwn : ∀ place, own place → second.entryAt? place = first.entryAt? place
  onWay : ∀ place, place <+: target → second.entryAt? place = first.entryAt? place ∨
    first.entryAt? place = none ∧ second.entryAt? place = some .directory

/-- What a call of a tool makes of the files, with the reply. -/
def replyTo (call : FileTree → ToolEffect) (tree : FileTree) : FileTree × ToolReply :=
  ((call tree).tree, (call tree).reply)

/-- Whether tools go by nothing but their input and what is where they write: the extractor below its directory, the
converter where its text is to be and on the way there. -/
structure GoByInput (tools : ArchiveTools) : Prop where
  extract : ∀ archive directory limit first second,
    SameFor archive (first.location directory) (first.location directory <+: ·) first second →
      Repeats (replyTo (tools.extract archive directory limit)) first second
  convert : ∀ binary text limit first second,
    SameFor binary (first.location text) (· <+: first.location text) first second →
      Repeats (replyTo (tools.convert binary text limit)) first second

theorem SameFor.of_sameEntries (same : first.SameEntries second) (formed : first.WellFormed) (input : Path)
    (target : Location) (own : Location → Prop) : SameFor input target own first second where
  formed := formed
  formed_right := same.wellFormed formed
  workingDirectory := same.workingDirectory
  input := same.find input
  atOwn place _ := same.entryAt? place
  onWay place _ := .inl (same.entryAt? place)

theorem Duty.repeats_action {duty : Duty} {file : Path} (repeats : Repeats (replyTo (duty.call file)) first second) :
    Repeats (duty.action file) first second where
  answer := by
    have same : (duty.call file second).reply = (duty.call file first).reply := repeats.answer
    rw [Duty.action, Duty.action, same]
  entryAt? := repeats.entryAt?

/-! ## Archives -/

/-- Whether archives are listed in a tree by names, and their stems are different names. -/
structure Listed (base : FileTree) (archives : List Path) : Prop where
  differ : (archives.map Path.fileStem?).Nodup
  stems : ∀ archive ∈ archives, ∃ stem, archive.fileStem? = some stem ∧ Path.IsName stem
  found : ∀ archive ∈ archives, ∃ container place name entry, archive = Path.join container name ∧
    Path.IsName name ∧ base.find container = .ok (place, .directory) ∧ base.entryAt? (place ++ [name]) = some entry

/-- Whether archives are still to be extracted to a tree, in which everything is left that was there at first. -/
structure Unpackable (base : FileTree) (archives : List Path) (tree : FileTree) : Prop where
  listed : Listed base archives
  formed : tree.WellFormed
  named : tree.Named
  workingDirectory : tree.workingDirectory = base.workingDirectory
  kept : ∀ place entry, base.entryAt? place = some entry → tree.entryAt? place = some entry

theorem Listed.mono {rest : List Path} (listed : Listed base archives) (differ : (rest.map Path.fileStem?).Nodup)
    (among : rest ⊆ archives) : Listed base rest where
  differ := differ
  stems archive member := listed.stems archive (among member)
  found archive member := listed.found archive (among member)

/-- Archives that a directory lists are listed by names. -/
theorem listed_of_archives (formed : tree.WellFormed) {container : Path} (areArchives : Indexing.archives container tree = .ok archives)
    (stems : (archives.map Path.fileStem?).Nodup ∧
      ∀ archive ∈ archives, ∃ stem, archive.fileStem? = some stem ∧ Path.IsName stem) : Listed tree archives where
  differ := stems.1
  stems := stems.2
  found archive member := by
    obtain ⟨children, listed, isFiltered⟩ := bind_eq_ok_iff.1 areArchives
    cases isFiltered
    rw [Path.sort, List.mem_mergeSort] at member
    obtain ⟨⟨name, entry⟩, isChild, rfl⟩ := List.mem_map.1 member
    have isChild := (List.mem_filter.1 isChild).1
    obtain ⟨⟨place, found⟩, leads, isList⟩ := bind_eq_ok_iff.1 listed
    cases found with
    | file content executable => cases isList
    | directory =>
        cases isList
        have inEntries := mem_entries_of_mem_children isChild
        have isEntry := (formed.distinct.mem_entries_iff (List.append_ne_nil_of_right_ne_nil place (List.cons_ne_nil name []))).1 inEntries
        exact ⟨container, place, name, entry, rfl, isName_of_mem_children formed.named isChild, leads, isEntry⟩

theorem Listed.location_eq (listed : Listed base archives) (member : archive ∈ archives) :
    ∃ stem, archive.fileStem? = some stem ∧
      base.location (AddonWork.extractionDirectory destination archive) = base.location destination ++ [stem] := by
  rcases listed.stems archive member with ⟨stem, isStem, isName⟩
  exact ⟨stem, isStem, by rw [extractionDirectory_eq isStem, location_join_name destination isName]⟩

/-- Archives of different stems are extracted apart. -/
theorem Listed.apart {rest : List Path} (listed : Listed base (archive :: other :: rest)) (place : Location)
    (isOwn : base.location (AddonWork.extractionDirectory destination archive) <+: place) :
    ¬ base.location (AddonWork.extractionDirectory destination other) <+: place := by
  rcases listed.location_eq List.mem_cons_self with ⟨stem, isStem, target⟩
  rcases listed.location_eq (List.mem_cons_of_mem archive List.mem_cons_self) with
    ⟨otherStem, isOtherStem, otherTarget⟩
  rw [target] at isOwn
  rw [otherTarget]
  intro isOther
  apply List.ne_of_not_mem_cons (List.nodup_cons.1 listed.differ).1
  rw [isStem, isOtherStem, eq_of_isPrefix_concat isOwn isOther]

/-- An archive that is still there leads to what it led to. -/
theorem Unpackable.find_eq (unpackable : Unpackable base archives tree) (member : archive ∈ archives) :
    tree.find archive = base.find archive := by
  rcases unpackable.listed.found archive member with ⟨container, place, name, entry, rfl, isName, found, there⟩
  have walked := (find_eq_directory_iff.1 found).2
  have walks : tree.walk (base.start container) container.written = .ok place :=
    walk_of_directories (fun place => unpackable.kept place .directory) walked
  have written : (container.join name).written = container.written ++ [name] := by
    rw [← Path.descend_singleton, Path.written_descend container (List.forall_mem_singleton.2 isName)]
  apply find_congr unpackable.workingDirectory
  · rw [written, List.dropLast_concat, start_join isName.head?_ne_slash, walks, walked]
  · intro parent last slash resolved
    have placed : parent ++ [last] = place ++ [name] := by
      rw [FileOp.location_of_resolve resolved, location_join_name container isName, ← find_location found]
    rw [placed, there]
    exact unpackable.kept _ _ there

section Extraction

variable (extractsBelow : ExtractsBelow work.environment.tools)

include extractsBelow

/-- The extraction of an archive extends what is below its directory. -/
theorem Unpackable.extendsBelow (unpackable : Unpackable base archives tree) (archive destination : Path) :
    ExtendsBelow (base.location (AddonWork.extractionDirectory destination archive)) tree
      ((work.extractionDuty destination).action archive tree).1 := by
  rw [← location_congr unpackable.workingDirectory]
  exact extractsBelow archive _ _ tree unpackable.formed

/-- After the extraction of one archive the others are still to be extracted. -/
theorem Unpackable.step {rest : List Path} (formed : base.WellFormed)
    (fresh : base.entryAt? (base.location destination) = none) (unpackable : Unpackable base (archive :: rest) tree) :
    Unpackable base rest ((work.extractionDuty destination).action archive tree).1 := by
  have changes := unpackable.extendsBelow extractsBelow archive destination
  rcases unpackable with ⟨listed, -, named, workingDirectory, kept⟩
  rcases listed.location_eq List.mem_cons_self with ⟨stem, -, target⟩
  rw [target] at changes
  refine ⟨listed.mono listed.differ.of_cons (List.subset_cons_self _ _), changes.formed, ⟨changes.formed.named, ?_⟩,
    changes.workingDirectory.trans workingDirectory, ?_⟩
  · rw [changes.workingDirectory]
    exact named.start
  · intro place entry there
    rcases changes.entryAt? place with same | ⟨below, -⟩ | ⟨-, missing, -⟩
    · rw [same]
      exact kept place entry there
    · -- Nothing was below the directory for extraction.
      rcases below with ⟨more, rfl⟩
      rw [List.append_assoc] at there
      rw [formed.above there (List.cons_ne_nil _ _)] at fresh
      cases fresh
    · rw [kept place entry there] at missing
      cases missing

/-- Archives of different stems can be extracted in any order. -/
theorem independent_extractions (goByInput : GoByInput work.environment.tools) (formed : base.WellFormed)
    (fresh : base.entryAt? (base.location destination) = none) :
    Independent (work.extractionDuty destination).action
      (fun archive place => base.location (AddonWork.extractionDirectory destination archive) <+: place)
      (fun place => place <+: base.location destination) (Unpackable base) where
  distinct unpackable := unpackable.formed.distinct
  perm unpackable perm := { unpackable with
    listed := unpackable.listed.mono ((perm.map _).nodup_iff.1 unpackable.listed.differ) perm.symm.subset }
  relist unpackable same :=
    { listed := unpackable.listed
      formed := same.wellFormed unpackable.formed
      named := same.named unpackable.named
      workingDirectory := same.workingDirectory.trans unpackable.workingDirectory
      kept := fun place entry there => (same.entryAt? place).trans (unpackable.kept place entry there) }
  step unpackable := unpackable.step extractsBelow formed fresh
  bounds {archive rest tree} unpackable := by
    have changes := unpackable.extendsBelow extractsBelow archive destination
    rcases unpackable.listed.location_eq List.mem_cons_self with ⟨stem, -, target⟩
    refine ⟨(unpackable.step extractsBelow formed fresh).named, changes.workingDirectory, fun place => ?_⟩
    rcases changes.entryAt? place with same | ⟨below, -⟩ | ⟨above, missing, made⟩
    · exact .inl same
    · exact .inr (.inl below)
    · by_cases here : place = base.location (AddonWork.extractionDirectory destination archive)
      · exact .inr (.inl (here ▸ List.prefix_rfl))
      · rw [target] at above here
        exact .inr (.inr ⟨(List.prefix_concat_iff.1 above).resolve_left here, missing, made⟩)
  apart unpackable place := unpackable.listed.apart place
  offWay {archive rest tree} unpackable place isOwn onWay := by
    rcases unpackable.listed.location_eq List.mem_cons_self with ⟨stem, -, target⟩
    have length := (isOwn.trans onWay).length_le
    rw [target, List.length_append, List.length_singleton] at length
    omega
  repeats {one other rest tree} unpackable := by
    have changes := unpackable.extendsBelow extractsBelow one destination
    have later := unpackable.step extractsBelow formed fresh
    have isOther := List.mem_cons_of_mem one (@List.mem_cons_self _ other rest)
    apply Duty.repeats_action
    apply goByInput.extract
    rw [location_congr unpackable.workingDirectory]
    refine ⟨unpackable.formed, changes.formed, changes.workingDirectory,
      (later.find_eq List.mem_cons_self).trans (unpackable.find_eq isOther).symm, fun place atTarget => ?_,
      fun place onWay => ?_⟩
    · rcases changes.entryAt? place with same | ⟨below, -⟩ | ⟨above, -⟩
      · exact same
      · exact absurd atTarget (unpackable.listed.apart place below)
      · exact absurd (atTarget.trans above) (unpackable.listed.apart _ List.prefix_rfl)
    · rcases changes.entryAt? place with same | ⟨below, -⟩ | ⟨-, missing, made⟩
      · exact .inl same
      · exact absurd List.prefix_rfl (unpackable.listed.apart _ (below.trans onWay))
      · exact .inr ⟨missing, made⟩
  same {archive rest first second} unpackable same :=
    Duty.repeats_action (goByInput.extract _ _ _ _ _ (.of_sameEntries same unpackable.formed _ _ _))

end Extraction

/-! ## Binary configs -/

/-- Whether binary configs are still to be converted in a tree that differs from an earlier one only in texts that
others were converted to. -/
structure Convertible (origin : Path) (directories : List Path) (base : FileTree) (binaries : List Path)
    (tree : FileTree) : Prop where
  nodup : binaries.Nodup
  areBinaries : ∀ binary ∈ binaries, ∃ below, IsBinary base origin directories below ∧ binary = origin.descend below
  formed : tree.WellFormed
  named : tree.Named
  rewrites : Rewrites origin directories base tree

/-- Whether no two binary configs are in one directory. -/
def SingleBinaries (origin : Path) (directories : List Path) (tree : FileTree) : Prop :=
  ∀ binary other, IsBinary tree origin directories binary → IsBinary tree origin directories other →
    binary.dropLast = other.dropLast → binary = other

/-- Neither the order of the directories nor that of listing matters to what is extracted. -/
theorem IsBinary.relist {others : List Path} {below : Location} (same : first.SameEntries second)
    (perm : directories.Perm others) (isBinary : IsBinary second origin others below) :
    IsBinary first origin directories below := by
  rcases isBinary with ⟨⟨stem, names, rfl, isName, member, there, listed⟩, isBinary⟩
  rw [same.isDirectory] at there
  rw [same.distinct_right.mem_filesAt_iff, same.entryAt?, location_congr same.workingDirectory,
    ← same.distinct.mem_filesAt_iff] at listed
  exact ⟨⟨stem, names, rfl, isName, perm.mem_iff.2 member, there, listed⟩, isBinary⟩

theorem SingleBinaries.relist {others : List Path} (single : SingleBinaries origin directories first)
    (same : first.SameEntries second) (perm : directories.Perm others) : SingleBinaries origin others second :=
  fun binary other isBinary otherIsBinary => single binary other (isBinary.relist same perm)
    (otherIsBinary.relist same perm)

section Conversion

variable {cache : ReferenceCache} {temp addon : Text} {rest : List Path} {binary : Path}

theorem location_convertedConfig (formed : base.WellFormed) (ends : Path.EndsInName origin) {below : Location}
    (isBinary : IsBinary base origin directories below) :
    base.location (AddonWork.convertedConfig (origin.descend below)) = base.location origin ++ conversion below := by
  rw [convertedConfig_extracted formed ends isBinary.1]
  apply location_descend
  exact IsChosen.names formed (.inr ⟨below, isBinary, rfl⟩)

/-- The binary configs are all left as they were. -/
theorem Convertible.exists_entry (formed : base.WellFormed)
    (convertible : Convertible origin directories base binaries tree) {below : Location}
    (isBinary : IsBinary base origin directories below) :
    ∃ entry, base.entryAt? (base.location origin ++ below) = some entry ∧
      tree.entryAt? (base.location origin ++ below) = some entry := by
  rcases isBinary with ⟨⟨stem, names, rfl, -, -, -, listed⟩, isBinary⟩
  obtain ⟨-, content, executable, isFile⟩ := formed.distinct.mem_filesAt_iff.1 listed
  rw [List.append_assoc, List.singleton_append] at isFile
  refine ⟨_, isFile, ?_⟩
  rcases convertible.rewrites.entryAt? (base.location origin ++ stem :: names) with same | ⟨other, -, same⟩
  · exact same.trans isFile
  · -- What is converted to is no binary config.
    rw [List.append_cancel_left same, endsWith_conversion_binary] at isBinary
    cases isBinary

/-- Above the text that a binary config is converted to there are directories. -/
theorem Convertible.directory_above (formed : base.WellFormed)
    (convertible : Convertible origin directories base binaries tree) {below : Location}
    (isBinary : IsBinary base origin directories below) (onWay : place <+: base.location origin ++ conversion below)
    (differs : place ≠ base.location origin ++ conversion below) : tree.entryAt? place = some .directory := by
  rcases convertible.exists_entry formed isBinary with ⟨entry, -, there⟩
  rcases isBinary.1.split formed with ⟨stem, front, last, rfl, dropped, -⟩
  rw [conversion, ← List.append_assoc] at onWay differs
  rcases (List.prefix_concat_iff.1 onWay).resolve_left differs with ⟨more, whole⟩
  rw [dropped] at whole
  have there : tree.entryAt? (place ++ (more ++ [last])) = some entry := by
    rw [← List.append_assoc, whole, List.append_assoc]
    exact there
  exact convertible.formed.above there (List.append_ne_nil_of_right_ne_nil more (List.cons_ne_nil last []))

/-- A binary config that is still to be converted leads to what it led to. -/
theorem Convertible.find_eq (separate : Separate cache temp addon base) (formed : base.WellFormed)
    (convertible : Convertible (extractionRoot cache temp addon) directories base binaries tree)
    (member : binary ∈ binaries) : tree.find binary = base.find binary := by
  rcases convertible.areBinaries binary member with ⟨below, isBinary, rfl⟩
  rcases convertible.exists_entry formed isBinary with ⟨entry, there, thereToo⟩
  have whole : base.location (extractionRoot cache temp addon) = base.location cache.root ++ [temp, addon] :=
    separate.location_eq
  rw [whole, List.append_assoc] at there thereToo
  have areNames : ∀ name ∈ below, Path.IsName name := fun name inBelow =>
    formed.names there name (List.mem_append_right _ (List.mem_append_right _ inBelow))
  apply @find_descend_eq base tree cache.root (temp :: addon :: below) entry formed convertible.formed
    convertible.rewrites.workingDirectory _ _ there thereToo
  · intro passed onWay
    rcases convertible.rewrites.entryAt? passed with same | ⟨other, -, rfl⟩
    · exact same
    · rw [whole, List.append_assoc] at onWay
      exact absurd ⟨addon :: conversion other, by simp⟩ (separate.avoidsTemp _ onWay)
  · exact List.forall_mem_cons.2 ⟨separate.tempIsName, List.forall_mem_cons.2 ⟨separate.isName, areNames⟩⟩

/-- Binary configs of which no two are in one directory are converted to different texts. -/
theorem Convertible.apart (ends : Path.EndsInName origin) (formed : base.WellFormed)
    (single : SingleBinaries origin directories base)
    (convertible : Convertible origin directories base (binary :: other :: rest) tree) :
    base.location (AddonWork.convertedConfig binary) ≠ base.location (AddonWork.convertedConfig other) := by
  rcases convertible.areBinaries binary List.mem_cons_self with ⟨below, isBinary, rfl⟩
  rcases convertible.areBinaries other (List.mem_cons_of_mem _ List.mem_cons_self) with ⟨beside, otherIsBinary, rfl⟩
  rw [location_convertedConfig formed ends isBinary, location_convertedConfig formed ends otherIsBinary]
  intro same
  have directory := (List.append_inj' (List.append_cancel_left same) rfl).1
  apply List.ne_of_not_mem_cons (List.nodup_cons.1 convertible.nodup).1
  rw [single below beside isBinary otherIsBinary directory]

variable (inPlace : ConvertsInPlace work.environment.tools)

include inPlace

/-- The conversion of a binary config changes nothing but the text that it is converted to. -/
theorem Convertible.elsewhere (convertible : Convertible origin directories base binaries tree) (binary : Path) :
    (work.conversionDuty.action binary tree).1.WellFormed ∧
      (work.conversionDuty.action binary tree).1.workingDirectory = tree.workingDirectory ∧
      ∀ place, place ≠ base.location (AddonWork.convertedConfig binary) →
        (work.conversionDuty.action binary tree).1.entryAt? place = tree.entryAt? place := by
  rw [← convertible.rewrites.location]
  exact inPlace binary _ _ tree convertible.formed

/-- After the conversion of one binary config the others are still to be converted. -/
theorem Convertible.step (ends : Path.EndsInName origin) (formed : base.WellFormed)
    (convertible : Convertible origin directories base (binary :: rest) tree) :
    Convertible origin directories base rest (work.conversionDuty.action binary tree).1 := by
  rcases convertible.elsewhere inPlace binary with ⟨formedAfter, workingDirectory, elsewhere⟩
  rcases convertible with ⟨nodup, areBinaries, -, named, rewrites⟩
  rcases List.forall_mem_cons.1 areBinaries with ⟨⟨below, isBinary, rfl⟩, others⟩
  refine ⟨nodup.of_cons, others, formedAfter, ⟨formedAfter.named, workingDirectory ▸ named.start⟩,
    workingDirectory.trans rewrites.workingDirectory, fun place => ?_⟩
  by_cases here : place = base.location (AddonWork.convertedConfig ((origin.descend below)))
  · exact .inr ⟨below, isBinary, here.trans (location_convertedConfig formed ends isBinary)⟩
  · rw [elsewhere place here]
    exact rewrites.entryAt? place

/-- Binary configs of which no two are in one directory can be converted in any order. -/
theorem independent_conversions (goByInput : GoByInput work.environment.tools) (formed : base.WellFormed)
    (separate : Separate cache temp addon base)
    (single : SingleBinaries (extractionRoot cache temp addon) directories base) :
    Independent work.conversionDuty.action
      (fun binary place => place = base.location (AddonWork.convertedConfig binary)) (fun _ => False)
      (Convertible (extractionRoot cache temp addon) directories base) where
  distinct convertible := convertible.formed.distinct
  perm convertible perm := { convertible with
    nodup := perm.nodup_iff.1 convertible.nodup
    areBinaries := fun binary member => convertible.areBinaries binary (perm.mem_iff.2 member) }
  relist convertible same :=
    { nodup := convertible.nodup
      areBinaries := convertible.areBinaries
      formed := same.wellFormed convertible.formed
      named := same.named convertible.named
      rewrites :=
        { workingDirectory := same.workingDirectory.trans convertible.rewrites.workingDirectory
          entryAt? := fun place => (same.entryAt? place).symm ▸ convertible.rewrites.entryAt? place } }
  step convertible := convertible.step inPlace separate.endsInName formed
  bounds {binary rest tree} convertible := by
    rcases convertible.elsewhere inPlace binary with ⟨-, workingDirectory, elsewhere⟩
    refine ⟨(convertible.step inPlace separate.endsInName formed).named, workingDirectory, fun place => ?_⟩
    by_cases here : place = base.location (AddonWork.convertedConfig binary)
    · exact .inr (.inl here)
    · exact .inl (elsewhere place here)
  apart convertible place isOwn isOther := convertible.apart separate.endsInName formed single (isOwn.symm.trans isOther)
  offWay _ _ _ := id
  repeats {binary other rest tree} convertible := by
    rcases convertible.elsewhere inPlace binary with ⟨formedAfter, workingDirectory, elsewhere⟩
    have later := convertible.step inPlace separate.endsInName formed
    have isOther := List.mem_cons_of_mem binary (@List.mem_cons_self _ other rest)
    apply Duty.repeats_action
    apply goByInput.convert
    rw [convertible.rewrites.location]
    have alike : ∀ place, place <+: base.location (AddonWork.convertedConfig other) →
        (work.conversionDuty.action binary tree).1.entryAt? place = tree.entryAt? place := by
      intro place onWay
      by_cases here : place = base.location (AddonWork.convertedConfig binary)
      · -- The other binary config is below this place, both before and after the conversion.
        have differs := convertible.apart separate.endsInName formed single
        rw [← here] at differs
        rcases convertible.areBinaries other isOther with ⟨below, isBinary, rfl⟩
        rw [location_convertedConfig formed separate.endsInName isBinary] at onWay differs
        have before := convertible.directory_above formed isBinary onWay differs
        have after := later.directory_above formed isBinary onWay differs
        exact after.trans before.symm
      · exact elsewhere place here
    exact ⟨convertible.formed, formedAfter, workingDirectory,
      (later.find_eq separate formed List.mem_cons_self).trans (convertible.find_eq separate formed isOther).symm,
      alike, fun place onWay => .inl (alike place onWay)⟩
  same {binary rest first second} convertible same :=
    Duty.repeats_action (goByInput.convert _ _ _ _ _ (.of_sameEntries same convertible.formed _ _ _))

end Conversion

/-! ## Tools that put files where nothing is -/

theorem goByInput_unpackingTools (files : List (Text × Text)) (converted : Text) :
    GoByInput (unpackingTools files converted) where
  extract archive directory limit first second same := by
    refine ⟨rfl, fun place agree => ?_⟩
    have target : second.location directory = first.location directory := location_congr same.workingDirectory directory
    change (plantFiles (second.location directory) files (plantWay second [] (second.location directory))).entryAt? place =
      (plantFiles (first.location directory) files (plantWay first [] (first.location directory))).entryAt? place
    rw [target]
    have ways : ∀ passed, second.entryAt? passed = first.entryAt? passed →
        (plantWay second [] (first.location directory)).entryAt? passed =
          (plantWay first [] (first.location directory)).entryAt? passed := by
      intro passed agree
      have atRoot : second.entryAt? [] = first.entryAt? [] := rfl
      exact entryAt?_plantWay_congr same.formed_right atRoot same.onWay (.inl agree)
    apply entryAt?_plantFiles_congr
    · exact fun passed isBelow => ways passed (same.atOwn passed isBelow)
    · exact ways place agree
  convert binary text limit first second same := by
    refine ⟨rfl, fun place agree => ?_⟩
    have target : second.location text = first.location text := location_congr same.workingDirectory text
    change (plant second (second.location text).dropLast ((second.location text).getLast?.getD []) _).entryAt? place =
      (plant first (first.location text).dropLast ((first.location text).getLast?.getD []) _).entryAt? place
    rw [target]
    have atOwn := same.atOwn
    generalize first.location text = whole at atOwn ⊢
    cases last : whole.getLast? with
    | none =>
        have noName : ¬ Path.IsName ((none : Option Text).getD []) := fun isName => isName.nonempty rfl
        rw [entryAt?_plant, entryAt?_plant, if_neg fun both => noName both.1.2.2, if_neg fun both => noName both.1.2.2]
        exact agree
    | some name =>
        rcases List.getLast?_eq_some_iff.1 last with ⟨front, rfl⟩
        rw [List.dropLast_concat, Option.getD_some]
        exact entryAt?_plant_congr (atOwn _ (List.prefix_append _ _)) (atOwn _ List.prefix_rfl) agree

end AddonIndex.Indexing
