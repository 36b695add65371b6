import AddonIndex.Proofs.Indexing.Obtained
import AddonIndex.Proofs.Reference.Relocation

/-!
# Reading configs again

The entry mirrors the extracted archives as far as files are kept. Configs that
are among them and include nothing else are read from it alike, and they are in
the same order.
-/

namespace AddonIndex.Indexing

open ClassConfig FileTree Reference

variable {work : AddonWork} {before after : Scene} {temp : Text} {tree next : FileTree}
  {directories : List Path} {origin entry : Path} {below : Location}

/-! ## Conversions whose texts can be read -/

theorem isFile_of_sourceLines {file : Path} {lines : List Text}
    (source : sourceLines tree file = .ok lines) : tree.isFile file = true := by
  unfold sourceLines at source
  split at source
  · rename_i text read
    obtain ⟨place, content, executable, found, -⟩ := readText_eq_ok_iff.1 read
    exact isFile_iff.2 ⟨place, content, executable, found⟩
  · cases source

/-- A config that can be read is a file. -/
theorem isFile_of_readConfig {config includeDirectory : Path} {parsed : ParsedConfig}
    (read : readConfig tree config includeDirectory = .ok parsed) : tree.isFile config = true := by
  obtain ⟨result, preprocessed, -⟩ := bind_eq_ok_iff.1 read
  unfold preprocess at preprocessed
  generalize maxInclusionDepth = depth at preprocessed
  cases depth with
  | zero =>
      obtain ⟨lines, source, -⟩ := bind_eq_ok_iff.1 preprocessed
      exact isFile_of_sourceLines source
  | succ depth =>
      obtain ⟨lines, source, -⟩ := bind_eq_ok_iff.1 preprocessed
      exact isFile_of_sourceLines source

/-- Conversions whose texts can all be read have written them. -/
theorem Rewrites.converts (rewrites : Rewrites origin directories tree next) (formed : tree.WellFormed)
    (readable : ∀ binary, IsBinary tree origin directories binary →
      next.isFile (origin.descend (conversion binary)) = true) :
    Converts origin directories tree next where
  toRewrites := rewrites
  written binary isBinary := by
    obtain ⟨place, content, executable, found⟩ := isFile_iff.1 (readable binary isBinary)
    obtain ⟨-, -, -, -, -, -, -, -, -, -, -, there⟩ := find_eq_file_iff.1 found
    rw [find_location found, rewrites.location,
      location_descend tree origin (IsChosen.names formed (.inr ⟨binary, isBinary, rfl⟩))] at there
    exact ⟨content, executable, there⟩

/-! ## The entry as a mirror -/

/-- The path of an entry is not longer than that of the directory for its archives. -/
theorem utf8Size_entry_le {cache : ReferenceCache} {addon : Text} (tempIsName : Path.IsName temp)
    (isName : Path.IsName addon) :
    (cache.entry addon).text.utf8Size ≤ (extractionRoot cache temp addon).text.utf8Size := by
  have ends := Path.endsInName_join cache.root tempIsName
  have slash : '/' :: addon = ['/'] ++ addon := rfl
  rw [extractionRoot, ends.join_eq isName.head?_ne_slash, ReferenceCache.entry_eq, Path.join, Path.join,
    if_neg isName.head?_ne_slash, if_neg tempIsName.head?_ne_slash, slash]
  split
  · simp only [Text.utf8Size_append]
    omega
  · have slashTemp : '/' :: temp = ['/'] ++ temp := rfl
    rw [slashTemp]
    simp only [Text.utf8Size_append]
    omega

/-- Where something is extracted the directory for the archives is there. -/
theorem Extracted.find_origin (ends : Path.EndsInName origin)
    (extracted : Extracted tree origin directories below) :
    tree.find origin = .ok (tree.location origin, .directory) := by
  obtain ⟨stem, names, -, isName, -, there, -⟩ := extracted
  obtain ⟨place, found⟩ := isDirectory_iff.1 there
  obtain ⟨⟨-, noZero, short⟩, -, directory, walked, -⟩ := (find_join_name_iff isName).1 found
  rw [ends.join_eq isName.head?_ne_slash] at noZero short
  simp only [List.mem_append, not_or, Text.utf8Size_append] at noZero short
  have found : tree.find origin = .ok (directory, .directory) :=
    find_eq_directory_iff.2 ⟨⟨ends.text_ne_nil, noZero.1, by omega⟩, walked⟩
  rw [found, find_location found]

theorem LaidOut.endsEntry (laidOut : LaidOut work temp directories tree) :
    Path.EndsInName (work.cache.entry work.addon.name) :=
  Path.endsInName_join work.cache.root laidOut.separate.isName

/-- A saved entry mirrors the extracted archives, if there are any. -/
theorem Stored.mirrored (laidOut : LaidOut work temp directories tree)
    (stored : Stored work.cache temp work.addon.name directories tree next)
    (extracted : Extracted tree (work.extractedAt temp) directories below) :
    Mirrored tree next (work.extractedAt temp) (work.cache.entry work.addon.name)
      (Kept tree (work.extractedAt temp) directories) where
  formed := laidOut.formed
  found := extracted.find_origin laidOut.ends
  foundEntry := stored.found
  holds := stored.holds
  isKept _ _ kept := kept.2.2
  shorter := utf8Size_entry_le laidOut.separate.tempIsName laidOut.separate.isName

/-- What is written below a path leads down from it by names. -/
theorem under_joinWith (ends : Path.EndsInName origin) {stem : Text} {names : List Text}
    (areNames : ∀ name ∈ stem :: names, Path.IsName name) :
    under origin (Text.joinWith ['/'] (stem :: names)) = origin.descend (stem :: names) := by
  refine congrArg Path.mk (Eq.trans ?_ (Path.text_descend ends areNames).symm)
  rw [Path.joinWith_slash]
  rfl

theorem written_joinWith {stem : Text} {names : List Text}
    (areNames : ∀ name ∈ stem :: names, Path.IsName name) :
    Path.written ⟨Text.joinWith ['/'] (stem :: names)⟩ = stem :: names := by
  obtain ⟨isName, restAreNames⟩ := List.forall_mem_cons.1 areNames
  have ends : Path.EndsInName ⟨stem⟩ := ⟨[], stem, rfl, isName, .inl rfl⟩
  have whole : Path.mk (Text.joinWith ['/'] (stem :: names)) = Path.descend ⟨stem⟩ names :=
    congrArg Path.mk ((Path.joinWith_slash stem names).trans (Path.text_descend ends restAreNames).symm)
  rw [whole, Path.written_descend _ restAreNames, Path.written_name isName, List.singleton_append]

/-- A kept file that is found is the counterpart of the one in the entry. -/
theorem counterpart_of_kept (ends : Path.EndsInName origin) (endsEntry : Path.EndsInName entry)
    {stem : Text} {names : List Text} (nonempty : names ≠ []) (areNames : ∀ name ∈ stem :: names, Path.IsName name)
    {content : ByteArray} {kept : Location → ByteArray → Prop} (isKept : kept (stem :: names) content)
    (isFile : tree.isFile (origin.descend (stem :: names)) = true) :
    Counterpart tree origin entry kept (origin.descend (stem :: names))
      (entry.descend (stem :: names)) := by
  obtain ⟨isName, restAreNames⟩ := List.forall_mem_cons.1 areNames
  obtain ⟨name, rest, rfl⟩ := List.exists_cons_of_ne_nil nonempty
  have split : Text.joinWith ['/'] (stem :: name :: rest) =
      stem ++ '/' :: Text.joinWith ['/'] (name :: rest) := by
    rw [Path.joinWith_slash, Path.joinWith_slash]
    rfl
  refine ⟨stem, Text.joinWith ['/'] (name :: rest), isName, ?_, ?_, ?_, isFile⟩
  · rw [← split, under_joinWith ends areNames]
  · rw [← split, under_joinWith endsEntry areNames]
  rw [← split]
  obtain ⟨place, content, executable, found⟩ := isFile_iff.1 isFile
  obtain ⟨passable, -⟩ := find_eq_file_iff.1 found
  refine ⟨?_, ?_, ?_, fun _ passed member _ => ?_⟩
  · rwa [under_joinWith ends areNames]
  · rw [written_joinWith areNames]
    exact Location.stays_names areNames []
  · rw [written_joinWith areNames, Location.foldl_step_names areNames]
    exact fun same => List.cons_ne_nil name rest (List.cons.inj same).2
  · rw [written_joinWith areNames] at member
    obtain ⟨more, whole⟩ := Location.prefix_of_mem_visited areNames member
    exact ⟨more, _, by rw [whole]; exact isKept⟩

/-- The configs that a run reads without errors are all text configs that are there then, in the order of
their locations. -/
theorem sort_chosen_eq (laidOut : LaidOut work temp directories tree) (distinct : directories.Nodup)
    (converts : Converts (work.extractedAt temp) directories tree next) (distinctNext : next.Distinct)
    (unambiguous : Unambiguous next (work.extractedAt temp) directories) {chosen : List Path}
    (areChosen : chosen.Perm ((allConfigs directories tree).texts ++
      (allConfigs directories tree).binaries.map AddonWork.convertedConfig)) {belows : List Location}
    (nodup : belows.Nodup)
    (members : ∀ below, below ∈ belows ↔ IsText next (work.extractedAt temp) directories below) :
    Path.sort chosen = (belows.mergeSort Path.leBelow).map (work.extractedAt temp).descend := by
  obtain ⟨formed, separate, sideBySide⟩ := laidOut
  have isChosen : ∀ below, below ∈ belows ↔ IsChosen tree (work.extractedAt temp) directories below :=
    fun below => (members below).trans
      (converts.isChosen_iff separate formed distinctNext unambiguous).symm
  have isBinary : ∀ binary, IsBinary tree (work.extractedAt temp) directories binary →
      IsBinary next (work.extractedAt temp) directories binary :=
    fun binary => (converts.isBinary_iff separate formed distinctNext).2
  have single := fun binary other first second =>
    unambiguous.single binary other (isBinary binary first) (isBinary other second)
  exact Path.sort_descend_of_perm separate.endsInName
    (fun below member => ((isChosen below).1 member).names formed)
    (areChosen.trans (perm_chosen formed separate.endsInName sideBySide distinct single nodup isChosen))

theorem IsText.names (formed : tree.WellFormed) (isText : IsText tree origin directories below) :
    ∀ name ∈ below, Path.IsName name := by
  obtain ⟨stem, names, rfl, rest⟩ := isText.1
  have extracted : Extracted tree origin directories (stem :: names) := ⟨stem, names, rfl, rest⟩
  exact (extracted.names formed).2

/-- A text config that was read is read from the entry alike. -/
theorem Stored.read_eq_ok (laidOut : LaidOut work temp directories tree)
    (stored : Stored work.cache temp work.addon.name directories tree next)
    (isText : IsText tree (work.extractedAt temp) directories below)
    (steadily : IncludesSteadily tree (work.extractedAt temp)
      (Kept tree (work.extractedAt temp) directories) ((work.extractedAt temp).descend below))
    {parsed : ParsedConfig}
    (read : readResult plainReader tree ((work.extractedAt temp).descend below) = .ok parsed) :
    parsed.file.path = (work.extractedAt temp).descend below ∧
      readResult plainReader next ((work.cache.entry work.addon.name).descend below) =
        .ok (parsed.withPath ((work.cache.entry work.addon.name).descend below)) := by
  obtain ⟨content, isKept⟩ := (exists_kept_iff_isText laidOut.formed.distinct isText.2).2 isText
  have mirrored := stored.mirrored laidOut isText.1
  obtain ⟨stem, names, rfl, rest⟩ := isText.1
  have extracted : Extracted tree (work.extractedAt temp) directories (stem :: names) :=
    ⟨stem, names, rfl, rest⟩
  obtain ⟨nonempty, areNames⟩ := extracted.names laidOut.formed
  exact mirrored.readConfig_eq_ok (counterpart_of_kept laidOut.ends
    laidOut.endsEntry nonempty areNames isKept
    (isFile_of_readConfig read)) steadily read

/-- If everything succeeds, the configs that are read from the saved entry are those that were read among
the extracted archives, in the same order, and they are read alike. -/
theorem AddonWork.ConvertsAll.read_alike {saved begun : FileTree} (converts : work.ConvertsAll before after)
    (noError : after.errors ≤ before.errors) (inPlace : ConvertsInPlace work.environment.tools)
    (laidOut : LaidOut work temp before.extracted before.tree) (distinct : before.extracted.Nodup)
    (readable : ∀ config ∈ Path.sort after.converted,
      ∃ parsed, readResult plainReader after.tree config = .ok parsed)
    (unambiguous : Unambiguous after.tree (work.extractedAt temp) before.extracted)
    (steadily : ∀ config ∈ Path.sort after.converted, IncludesSteadily after.tree (work.extractedAt temp)
      (Kept after.tree (work.extractedAt temp) before.extracted) config)
    (saves : Saves work.cache work.addon.name before.extracted after.tree saved)
    (keeps : KeepsEntry work.cache work.addon.name saved begun) :
    work.cache.state work.addon.name begun = .valid ∧ ∃ belows : List Location,
      Path.sort after.converted = belows.map (work.extractedAt temp).descend ∧
      ReferenceCache.configFiles (work.cache.entry work.addon.name) begun =
        belows.map (work.cache.entry work.addon.name).descend ∧
      ∀ below ∈ belows, ∃ parsed,
        readResult plainReader after.tree ((work.extractedAt temp).descend below) = .ok parsed ∧
        parsed.file.path = (work.extractedAt temp).descend below ∧
        readResult plainReader begun ((work.cache.entry work.addon.name).descend below) =
          .ok (parsed.withPath ((work.cache.entry work.addon.name).descend below)) := by
  obtain ⟨deeds, conversions, chosen⟩ := converts.of_noError noError
  obtain ⟨rewrites, laidOutAfter⟩ := conversions.laidOut inPlace laidOut
  have written : Converts (work.extractedAt temp) before.extracted before.tree after.tree := by
    refine rewrites.converts laidOut.formed fun binary isBinary => ?_
    have isChosen : (work.extractedAt temp).descend (conversion binary) ∈ Path.sort after.converted := by
      rw [Path.sort, List.mem_mergeSort, chosen.mem_iff]
      exact (mem_chosen_iff laidOut.formed laidOut.ends laidOut.sideBySide).2
        ⟨_, .inr ⟨binary, isBinary, rfl⟩, rfl⟩
    obtain ⟨parsed, read⟩ := readable _ isChosen
    exact isFile_of_readConfig read
  have stored := stored_of_saves laidOutAfter.formed laidOutAfter.separate laidOutAfter.sideBySide
    saves keeps
  obtain ⟨belows, nodup, members, files⟩ := stored.configFiles_eq laidOutAfter.formed.distinct
  have sorted := sort_chosen_eq laidOut distinct written laidOutAfter.formed.distinct unambiguous chosen
    nodup members
  have areNames : ∀ below ∈ belows, ∀ name ∈ below, Path.IsName name := fun below member =>
    ((members below).1 member).names laidOutAfter.formed
  rw [Path.sort_map_descend laidOut.endsEntry areNames] at files
  refine ⟨stored.valid, _, sorted, files, fun below member => ?_⟩
  have isText := (members below).1 (List.mem_mergeSort.1 member)
  have isChosen : (work.extractedAt temp).descend below ∈ Path.sort after.converted := by
    rw [sorted]
    exact List.mem_map_of_mem member
  obtain ⟨parsed, read⟩ := readable _ isChosen
  exact ⟨parsed, read, stored.read_eq_ok laidOutAfter isText (steadily _ isChosen) read⟩

end AddonIndex.Indexing
