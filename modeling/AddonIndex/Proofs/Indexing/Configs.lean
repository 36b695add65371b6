import AddonIndex.Proofs.Indexing.FoundConfigs
import AddonIndex.Proofs.Indexing.Selection

/-!
# Which configs are parsed

Two ways of choosing configs come to the same. After extraction these are the
text configs without a binary config beside them and what the binary configs are
converted to. In the entry they are all text configs that were kept. They agree
if the directories hold at most one binary config each, and beside it no text
config of another spelling.
-/

namespace AddonIndex.Indexing

open FileTree Reference

variable {tree after : FileTree} {origin : Path} {directories : List Path} {below : Location}

/-- Whether a binary config is below one of several directories. -/
def IsBinary (tree : FileTree) (origin : Path) (directories : List Path) (below : Location) : Prop :=
  Extracted tree origin directories below ∧ endsWith binaryConfigName below = true

/-- Whether a text config is below one of several directories. -/
def IsText (tree : FileTree) (origin : Path) (directories : List Path) (below : Location) : Prop :=
  Extracted tree origin directories below ∧ endsWith textConfigName below = true

/-- Where the text is put that a binary config is converted to. -/
def conversion (below : Location) : Location := below.dropLast ++ [textConfigName]

/-- The configs that are parsed after extraction: the texts without a binary config beside them,
and those that binary configs are converted to. -/
def IsChosen (tree : FileTree) (origin : Path) (directories : List Path) (below : Location) : Prop :=
  (IsText tree origin directories below ∧
      ∀ binary, IsBinary tree origin directories binary → binary.dropLast ≠ below.dropLast) ∨
    ∃ binary, IsBinary tree origin directories binary ∧ below = conversion binary

/-- Whether all that differs after some conversions is what stands where they were to write. -/
structure Rewrites (origin : Path) (directories : List Path) (before after : FileTree) : Prop where
  workingDirectory : after.workingDirectory = before.workingDirectory
  entryAt? : ∀ place, after.entryAt? place = before.entryAt? place ∨
    ∃ binary, IsBinary before origin directories binary ∧
      place = before.location origin ++ conversion binary

/-- Whether the conversions also wrote all their files. -/
structure Converts (origin : Path) (directories : List Path) (before after : FileTree) : Prop
    extends Rewrites origin directories before after where
  written : ∀ binary, IsBinary before origin directories binary → ∃ content executable,
    after.entryAt? (before.location origin ++ conversion binary) = some (.file content executable)

/-- Whether text configs beside a binary config are spelled as conversions are, and no two binary
configs are side by side. -/
structure Unambiguous (tree : FileTree) (origin : Path) (directories : List Path) : Prop where
  single : ∀ binary other, IsBinary tree origin directories binary →
    IsBinary tree origin directories other → binary.dropLast = other.dropLast → binary = other
  spelled : ∀ binary text, IsBinary tree origin directories binary →
    IsText tree origin directories text → binary.dropLast = text.dropLast →
      text.getLast? = some textConfigName

theorem endsWith_conversion (binary : Location) : endsWith textConfigName (conversion binary) = true := by
  rw [conversion, endsWith_concat]
  decide

theorem not_isBinary_of_endsWith (isText : endsWith textConfigName below = true) :
    endsWith binaryConfigName below = false := by
  rcases List.eq_nil_or_concat below with rfl | ⟨front, last, rfl⟩
  · rfl
  · rw [List.concat_eq_append, endsWith_concat] at isText ⊢
    unfold Text.sameIgnoringCase at isText ⊢
    rw [beq_iff_eq] at isText
    rw [isText]
    decide

theorem endsWith_conversion_binary (binary : Location) :
    endsWith binaryConfigName (conversion binary) = false :=
  not_isBinary_of_endsWith (endsWith_conversion binary)

/-- What is extracted is a file under a name, in a directory that its archive's name begins. -/
theorem Extracted.split (formed : tree.WellFormed) (extracted : Extracted tree origin directories below) :
    ∃ stem front last, below = stem :: (front ++ [last]) ∧ below.dropLast = stem :: front ∧
      conversion below = stem :: (front ++ [textConfigName]) ∧ Path.IsName stem ∧
      (∀ name ∈ front, Path.IsName name) ∧ Path.IsName last := by
  obtain ⟨stem, names, rfl, rest⟩ := extracted
  have extracted : Extracted tree origin directories (stem :: names) := ⟨stem, names, rfl, rest⟩
  obtain ⟨nonempty, areNames⟩ := extracted.names formed
  rcases List.eq_nil_or_concat names with rfl | ⟨front, last, rfl⟩
  · exact absurd rfl nonempty
  · rw [List.concat_eq_append] at areNames ⊢
    have dropped : (stem :: (front ++ [last])).dropLast = stem :: front := by
      rw [← List.cons_append, List.dropLast_concat]
    exact ⟨stem, front, last, rfl, dropped, by rw [conversion, dropped]; rfl,
      areNames stem List.mem_cons_self, fun name member => areNames name (by simp [member]),
      areNames last (by simp)⟩

theorem Rewrites.location (rewrites : Rewrites origin directories tree after) (path : Path) :
    after.location path = tree.location path :=
  location_congr rewrites.workingDirectory path

section Conversions

variable {cache : ReferenceCache} {temp addon : Text} {binary : Location}

/-- The way to an extraction directory does not lead through what is written below it. -/
theorem Separate.avoids_conversion (separate : Separate cache temp addon tree) (formed : tree.WellFormed)
    (extracted : Extracted tree (extractionRoot cache temp addon) directories binary) {stem : Text}
    (isName : Path.IsName stem) :
    tree.Avoids ((extractionRoot cache temp addon).join stem)
      (tree.location (extractionRoot cache temp addon) ++ conversion binary) := by
  obtain ⟨first, front, last, -, -, converted, -⟩ := extracted.split formed
  have whole : (extractionRoot cache temp addon).join stem = cache.root.descend [temp, addon, stem] := rfl
  have target : tree.location (extractionRoot cache temp addon) ++ conversion binary =
      tree.location cache.root ++ [temp] ++ addon :: first :: (front ++ [textConfigName]) := by
    rw [separate.location_eq, converted]
    simp
  rw [whole, target]
  refine Avoids.descend (fun passed member isPrefix => ?_) ?_ fun above _ isPrefix reaches => ?_
  · exact separate.avoidsTemp passed member ((List.prefix_append _ _).trans isPrefix)
  · simpa using ⟨separate.tempIsName, separate.isName, isName⟩
  · have longer := reaches.length_le
    have shorter := isPrefix.length_le
    simp only [List.length_append, List.length_cons, List.length_nil] at longer shorter
    omega

variable (separate : Separate cache temp addon tree) (formed : tree.WellFormed)
  (rewrites : Rewrites (extractionRoot cache temp addon) directories tree after)

include separate formed rewrites

theorem Rewrites.find_iff {stem : Text} (isName : Path.IsName stem) {place : Location} {entry : Entry} :
    after.find ((extractionRoot cache temp addon).join stem) = .ok (place, entry) ↔
      tree.find ((extractionRoot cache temp addon).join stem) = .ok (place, entry) := by
  refine find_eq_ok_iff_of_agree rewrites.workingDirectory fun passed member => ?_
  rcases rewrites.entryAt? passed with same | ⟨binary, isBinary, rfl⟩
  · exact same
  · exact absurd (List.prefix_refl _) (separate.avoids_conversion formed isBinary.1 isName _ member)

/-- What is not the result of a conversion is extracted before the conversions if it is so
after them. -/
theorem Rewrites.extracted_iff (distinct : after.Distinct)
    (other : ∀ binary, IsBinary tree (extractionRoot cache temp addon) directories binary →
      below ≠ conversion binary) :
    Extracted after (extractionRoot cache temp addon) directories below ↔
      Extracted tree (extractionRoot cache temp addon) directories below := by
  unfold Extracted
  refine exists_congr fun stem => exists_congr fun names => and_congr_right fun isBelow =>
    and_congr_right fun isName => and_congr_right fun _ => ?_
  rw [isDirectory_iff, isDirectory_iff, distinct.mem_filesAt_iff, formed.distinct.mem_filesAt_iff,
    rewrites.location]
  simp only [rewrites.find_iff separate formed isName, List.append_assoc, List.singleton_append]
  rcases rewrites.entryAt? (tree.location (extractionRoot cache temp addon) ++ stem :: names) with
    same | ⟨binary, isBinary, same⟩
  · rw [same]
  · exact absurd (isBelow.trans (List.append_cancel_left same)) (other binary isBinary)

theorem Rewrites.isBinary_iff (distinct : after.Distinct) :
    IsBinary after (extractionRoot cache temp addon) directories below ↔
      IsBinary tree (extractionRoot cache temp addon) directories below := by
  unfold IsBinary
  refine and_congr_left fun isBinary => rewrites.extracted_iff separate formed distinct ?_
  rintro binary - rfl
  rw [endsWith_conversion_binary] at isBinary
  cases isBinary

omit rewrites

theorem Converts.extracted_conversion
    (converts : Converts (extractionRoot cache temp addon) directories tree after) (distinct : after.Distinct)
    (isBinary : IsBinary tree (extractionRoot cache temp addon) directories binary) :
    Extracted after (extractionRoot cache temp addon) directories (conversion binary) := by
  obtain ⟨content, executable, isFile⟩ := converts.written binary isBinary
  obtain ⟨stem, front, last, rfl, -, converted, -⟩ := isBinary.1.split formed
  obtain ⟨_, _, same, isName, member, there, listed⟩ := isBinary.1
  cases same
  rw [converted] at isFile ⊢
  obtain ⟨place, found⟩ := isDirectory_iff.1 there
  refine ⟨stem, _, rfl, isName, member,
    isDirectory_iff.2 ⟨place, (converts.find_iff separate formed isName).2 found⟩,
    distinct.mem_filesAt_iff.2 ⟨by simp, content, executable, ?_⟩⟩
  rw [converts.location, List.append_assoc]
  exact isFile

/-- The configs that are parsed after extraction are the text configs that are there then. -/
theorem Converts.isChosen_iff
    (converts : Converts (extractionRoot cache temp addon) directories tree after) (distinct : after.Distinct)
    (unambiguous : Unambiguous after (extractionRoot cache temp addon) directories) :
    IsChosen tree (extractionRoot cache temp addon) directories below ↔
      IsText after (extractionRoot cache temp addon) directories below := by
  constructor
  · rintro (⟨⟨extracted, isText⟩, alone⟩ | ⟨binary, isBinary, rfl⟩)
    · refine ⟨(converts.extracted_iff separate formed distinct fun binary isBinary same => ?_).2 extracted,
        isText⟩
      refine alone binary isBinary ?_
      rw [same, conversion, List.dropLast_concat]
    · exact ⟨converts.extracted_conversion separate formed distinct isBinary, endsWith_conversion binary⟩
  · rintro ⟨extracted, isText⟩
    by_cases beside : ∃ binary, IsBinary tree (extractionRoot cache temp addon) directories binary ∧
        binary.dropLast = below.dropLast
    · obtain ⟨binary, isBinary, same⟩ := beside
      refine .inr ⟨binary, isBinary, ?_⟩
      have spelled := unambiguous.spelled binary below
        ((converts.isBinary_iff separate formed distinct).2 isBinary) ⟨extracted, isText⟩ same
      obtain ⟨front, rfl⟩ := List.getLast?_eq_some_iff.1 spelled
      rw [List.dropLast_concat] at same
      rw [conversion, same]
    · have alone : ∀ binary, IsBinary tree (extractionRoot cache temp addon) directories binary →
          binary.dropLast ≠ below.dropLast := fun binary isBinary same => beside ⟨binary, isBinary, same⟩
      refine .inl ⟨⟨(converts.extracted_iff separate formed distinct fun binary isBinary same => ?_).1
        extracted, isText⟩, alone⟩
      refine alone binary isBinary ?_
      rw [same, conversion, List.dropLast_concat]

end Conversions

/-! ## The lists of configs -/

/-- What is found below directories side by side is what is extracted to them. -/
theorem isConfig_iff (formed : tree.WellFormed) (sideBySide : SideBySide origin directories tree) {wanted : Text}
    {file : Path} : IsConfig tree directories wanted file ↔
      ∃ below, (Extracted tree origin directories below ∧ endsWith wanted below = true) ∧
        file = origin.descend below := by
  constructor
  · rintro ⟨directory, member, names, has, ends, rfl⟩
    obtain ⟨stem, isName, rfl⟩ := sideBySide.named directory member
    refine ⟨stem :: names, ⟨⟨stem, names, rfl, isName, member, has.there, ?_⟩, ?_⟩, rfl⟩
    · rw [← location_join_name _ isName]
      exact formed.distinct.mem_filesAt_iff.2 ⟨has.names_ne_nil, has.isFile⟩
    · rwa [endsWith, List.getLast?_cons_of_ne_nil has.names_ne_nil]
  · rintro ⟨_, ⟨⟨stem, names, rfl, isName, member, there, listed⟩, ends⟩, rfl⟩
    obtain ⟨names_ne_nil, isFile⟩ := formed.distinct.mem_filesAt_iff.1 listed
    rw [← location_join_name _ isName] at isFile
    rw [endsWith, List.getLast?_cons_of_ne_nil names_ne_nil] at ends
    exact ⟨_, member, names, ⟨there, names_ne_nil, isFile⟩, ends, rfl⟩

/-- Different directories side by side have no file in common. -/
theorem SideBySide.shareNone (sideBySide : SideBySide origin directories tree) :
    ∀ first ∈ directories, ∀ second ∈ directories, first ≠ second → ShareNone tree first second := by
  intro first inFirst second inSecond differ names others _ _ same
  obtain ⟨stem, isName, rfl⟩ := sideBySide.named first inFirst
  obtain ⟨otherStem, otherIsName, rfl⟩ := sideBySide.named second inSecond
  rw [location_join_name _ isName, location_join_name _ otherIsName, List.append_assoc, List.append_assoc] at same
  cases List.append_cancel_left same
  exact differ rfl

theorem SideBySide.pairwise_shareNone (sideBySide : SideBySide origin directories tree) (nodup : directories.Nodup) :
    directories.Pairwise (ShareNone tree) :=
  List.Pairwise.imp_of_mem (fun inFirst inSecond => sideBySide.shareNone _ inFirst _ inSecond) nodup

theorem mem_allBinaries_iff (formed : tree.WellFormed) (sideBySide : SideBySide origin directories tree)
    {file : Path} :
    file ∈ (allConfigs directories tree).binaries ↔
      ∃ below, IsBinary tree origin directories below ∧ file = origin.descend below := by
  rw [mem_binaries_iff formed sideBySide.noFile, isConfig_iff formed sideBySide]
  rfl

theorem Extracted.dropLast_names (formed : tree.WellFormed)
    (extracted : Extracted tree origin directories below) : ∀ name ∈ below.dropLast, Path.IsName name := by
  obtain ⟨stem, front, last, -, dropped, -, isStem, frontNames, -⟩ := extracted.split formed
  rw [dropped]
  exact List.forall_mem_cons.2 ⟨isStem, frontNames⟩

theorem Extracted.location_eq (formed : tree.WellFormed) (extracted : Extracted tree origin directories below) :
    tree.location (origin.descend below) = tree.location origin ++ below := by
  obtain ⟨stem, names, rfl, rest⟩ := extracted
  have extracted : Extracted tree origin directories (stem :: names) := ⟨stem, names, rfl, rest⟩
  exact location_descend _ _ (extracted.names formed).2

theorem Extracted.beside_iff (formed : tree.WellFormed) {other : Location}
    (extracted : Extracted tree origin directories below) (otherExtracted : Extracted tree origin directories other) :
    Beside tree (origin.descend other) (origin.descend below) ↔ other.dropLast = below.dropLast := by
  rw [Beside, extracted.location_eq formed, otherExtracted.location_eq formed]
  obtain ⟨_, _, rfl, -⟩ := extracted
  obtain ⟨_, _, rfl, -⟩ := otherExtracted
  rw [List.dropLast_append_of_ne_nil (List.cons_ne_nil _ _), List.dropLast_append_of_ne_nil (List.cons_ne_nil _ _),
    List.append_cancel_left_eq]

theorem mem_allTexts_iff (formed : tree.WellFormed) (sideBySide : SideBySide origin directories tree) {file : Path} :
    file ∈ (allConfigs directories tree).texts ↔
      ∃ below, (IsText tree origin directories below ∧
        ∀ binary, IsBinary tree origin directories binary → binary.dropLast ≠ below.dropLast) ∧
          file = origin.descend below := by
  rw [mem_texts_iff formed sideBySide.noFile sideBySide.shareNone, isConfig_iff formed sideBySide]
  simp only [isConfig_iff formed sideBySide]
  constructor
  · rintro ⟨⟨below, isText, rfl⟩, alone⟩
    refine ⟨below, ⟨isText, fun binary isBinary same => ?_⟩, rfl⟩
    exact alone _ ⟨binary, isBinary, rfl⟩ ((isText.1.beside_iff formed isBinary.1).2 same)
  · rintro ⟨below, ⟨isText, alone⟩, rfl⟩
    refine ⟨⟨below, isText, rfl⟩, ?_⟩
    rintro _ ⟨binary, isBinary, rfl⟩ beside
    exact alone binary isBinary ((isText.1.beside_iff formed isBinary.1).1 beside)

theorem convertedConfig_extracted (formed : tree.WellFormed) (ends : Path.EndsInName origin)
    (extracted : Extracted tree origin directories below) :
    AddonWork.convertedConfig (origin.descend below) = origin.descend (conversion below) := by
  obtain ⟨stem, front, last, rfl, -, converted, isStem, frontNames, isLast⟩ := extracted.split formed
  have frontEnds := ends.descend (List.forall_mem_cons.2 ⟨isStem, frontNames⟩)
  rw [converted, ← List.cons_append, ← List.cons_append, Path.descend_append, Path.descend_append,
    AddonWork.convertedConfig, Path.descend_singleton, Path.descend_singleton]
  exact Path.withFileName_join frontEnds isLast textConfigName

theorem isName_textConfigName : Path.IsName textConfigName where
  nonempty := by decide
  noSlash := by decide
  notHere := by decide
  notUp := by decide

theorem IsChosen.names (formed : tree.WellFormed) (chosen : IsChosen tree origin directories below) :
    ∀ name ∈ below, Path.IsName name := by
  rcases chosen with ⟨⟨extracted, -⟩, -⟩ | ⟨binary, ⟨extracted, -⟩, rfl⟩
  · obtain ⟨stem, names, rfl, rest⟩ := extracted
    have extracted : Extracted tree origin directories (stem :: names) := ⟨stem, names, rfl, rest⟩
    exact (extracted.names formed).2
  · intro name member
    rcases List.mem_append.1 member with inFront | isLast
    · exact extracted.dropLast_names formed name inFront
    · rw [List.mem_singleton.1 isLast]
      exact isName_textConfigName

theorem mem_chosen_iff (formed : tree.WellFormed) (ends : Path.EndsInName origin)
    (sideBySide : SideBySide origin directories tree) {file : Path} :
    file ∈ (allConfigs directories tree).texts ++
        (allConfigs directories tree).binaries.map AddonWork.convertedConfig ↔
      ∃ below, IsChosen tree origin directories below ∧ origin.descend below = file := by
  rw [List.mem_append, List.mem_map, mem_allTexts_iff formed sideBySide]
  simp only [mem_allBinaries_iff formed sideBySide]
  constructor
  · rintro (⟨below, isText, rfl⟩ | ⟨_, ⟨binary, isBinary, rfl⟩, rfl⟩)
    · exact ⟨below, .inl isText, rfl⟩
    · exact ⟨conversion binary, .inr ⟨binary, isBinary, rfl⟩,
        (convertedConfig_extracted formed ends isBinary.1).symm⟩
  · rintro ⟨below, isText | ⟨binary, isBinary, rfl⟩, rfl⟩
    · exact .inl ⟨below, isText, rfl⟩
    · exact .inr ⟨_, ⟨binary, isBinary, rfl⟩, convertedConfig_extracted formed ends isBinary.1⟩

/-- No config is chosen twice. -/
theorem nodup_chosen (formed : tree.WellFormed) (ends : Path.EndsInName origin)
    (sideBySide : SideBySide origin directories tree) (distinct : directories.Nodup)
    (single : ∀ binary other, IsBinary tree origin directories binary →
      IsBinary tree origin directories other → binary.dropLast = other.dropLast → binary = other) :
    ((allConfigs directories tree).texts ++
      (allConfigs directories tree).binaries.map AddonWork.convertedConfig).Nodup := by
  have names : ∀ binary, IsBinary tree origin directories binary →
      ∀ name ∈ conversion binary, Path.IsName name := fun binary isBinary =>
    IsChosen.names formed (.inr ⟨binary, isBinary, rfl⟩)
  refine List.nodup_append'.2 ⟨?_, List.Nodup.map_on ?_ ?_, ?_⟩
  · exact nodup_texts formed sideBySide.noFile (sideBySide.pairwise_shareNone distinct)
  · intro file inFiles other inOthers same
    obtain ⟨binary, isBinary, rfl⟩ := (mem_allBinaries_iff formed sideBySide).1 inFiles
    obtain ⟨otherBinary, otherIsBinary, rfl⟩ := (mem_allBinaries_iff formed sideBySide).1 inOthers
    rw [convertedConfig_extracted formed ends isBinary.1,
      convertedConfig_extracted formed ends otherIsBinary.1] at same
    have equal := Path.descend_injective ends (names binary isBinary) (names otherBinary otherIsBinary)
      (congrArg Path.parts same)
    rw [single binary otherBinary isBinary otherIsBinary (List.append_inj' equal rfl).1]
  · exact nodup_binaries formed sideBySide.noFile (sideBySide.pairwise_shareNone distinct)
  · intro file isText isConverted
    obtain ⟨_, inFiles, rfl⟩ := List.mem_map.1 isConverted
    obtain ⟨binary, isBinary, rfl⟩ := (mem_allBinaries_iff formed sideBySide).1 inFiles
    obtain ⟨below, ⟨⟨extracted, text⟩, alone⟩, same⟩ := (mem_allTexts_iff formed sideBySide).1 isText
    rw [convertedConfig_extracted formed ends isBinary.1] at same
    have equal := Path.descend_injective ends (names binary isBinary)
      (IsChosen.names formed (.inl ⟨⟨extracted, text⟩, alone⟩)) (congrArg Path.parts same)
    refine alone binary isBinary ?_
    rw [← equal, conversion, List.dropLast_concat]

/-- The configs to parse, in some order: each of those that are chosen once. -/
theorem perm_chosen (formed : tree.WellFormed) (ends : Path.EndsInName origin)
    (sideBySide : SideBySide origin directories tree) (distinct : directories.Nodup)
    (single : ∀ binary other, IsBinary tree origin directories binary →
      IsBinary tree origin directories other → binary.dropLast = other.dropLast → binary = other)
    {belows : List Location} (nodup : belows.Nodup)
    (members : ∀ below, below ∈ belows ↔ IsChosen tree origin directories below) :
    ((allConfigs directories tree).texts ++
      (allConfigs directories tree).binaries.map AddonWork.convertedConfig).Perm
        (belows.map origin.descend) := by
  refine (List.perm_ext_iff_of_nodup (nodup_chosen formed ends sideBySide distinct single) ?_).2
    fun file => ?_
  · refine List.Nodup.map_on (fun first inFirst second inSecond same => ?_) nodup
    exact Path.descend_injective ends (((members first).1 inFirst).names formed)
      (((members second).1 inSecond).names formed) (congrArg Path.parts same)
  · rw [mem_chosen_iff formed ends sideBySide, List.mem_map]
    simp only [members]

end AddonIndex.Indexing

/-!
## What a saved entry is read for

An entry that was saved with success is trusted as long as nothing in it or on
the way to it changes. The configs that are read from it are the text configs
that were extracted, wherever they stood and wherever they came from.
-/

namespace AddonIndex.Indexing

open FileTree Location Reference

variable {cache : ReferenceCache} {temp addon : Text} {tree saved next : FileTree}
  {directories : List Path} {origin : Path} {below : Location}

/-- Whether nothing differs in the entry of an addon and on the way to it. -/
structure KeepsEntry (cache : ReferenceCache) (addon : Text) (before after : FileTree) : Prop where
  formed : after.WellFormed
  workingDirectory : after.workingDirectory = before.workingDirectory
  onWay : ∀ passed ∈ visited (before.start (cache.entry addon)) (cache.entry addon).written,
    after.entryAt? passed = before.entryAt? passed
  inEntry : ∀ below, after.entryAt? (cache.entryPlace addon before ++ below) =
    before.entryAt? (cache.entryPlace addon before ++ below)

theorem KeepsEntry.refl (formed : tree.WellFormed) : KeepsEntry cache addon tree tree :=
  ⟨formed, rfl, fun _ _ => rfl, fun _ => rfl⟩

theorem KeepsEntry.location (keeps : KeepsEntry cache addon tree next) (path : Path) :
    next.location path = tree.location path :=
  location_congr keeps.workingDirectory path

theorem KeepsEntry.find (keeps : KeepsEntry cache addon tree next) {place : Location} {entry : Entry}
    (found : tree.find (cache.entry addon) = .ok (place, entry)) :
    next.find (cache.entry addon) = .ok (place, entry) :=
  (find_eq_ok_iff_of_agree keeps.workingDirectory keeps.onWay).2 found

theorem KeepsEntry.holds (keeps : KeepsEntry cache addon tree next) {kept : Location → ByteArray → Prop}
    (holds : Holds (cache.entryPlace addon tree) kept tree) :
    Holds (cache.entryPlace addon tree) kept next where
  here := by
    have here := keeps.inEntry []
    rw [List.append_nil] at here
    rw [here, holds.here]
  marker := by
    obtain ⟨content, executable, isMarker⟩ := holds.marker
    exact ⟨content, executable, by rw [keeps.inEntry, isMarker]⟩
  isSaved below content executable there :=
    holds.isSaved below content executable (by rwa [← keeps.inEntry])
  holds below content isKept := by
    obtain ⟨executable, there⟩ := holds.holds below content isKept
    exact ⟨executable, by rw [keeps.inEntry, there]⟩
  above front rest content nonempty isKept := by
    rw [keeps.inEntry, holds.above front rest content nonempty isKept]
  isAbove below nonempty there := holds.isAbove below nonempty (by rwa [← keeps.inEntry])

/-! ### Text configs are kept -/

theorem eq_point_of_toLower {c : Char} (same : c.toLower = '.') : c = '.' := by
  unfold Char.toLower at same
  split at same
  · rename_i upper
    have value := congrArg (fun c : Char => c.val.toNat) same
    have low : (65 : UInt32).toNat ≤ c.val.toNat := UInt32.le_iff_toNat_le.1 upper.1
    have high : c.val.toNat ≤ (90 : UInt32).toNat := UInt32.le_iff_toNat_le.1 upper.2
    simp [UInt32.toNat_add] at value low high
    omega
  · exact same

/-- A text config is spelled as two words in any case with a dot between them. -/
theorem split_textConfigName {name : Text} (same : Text.sameIgnoringCase name textConfigName = true) :
    ∃ stem extension, name = stem ++ '.' :: extension ∧ stem.map Char.toLower = "config".toList ∧
      extension.map Char.toLower = "cpp".toList := by
  unfold Text.sameIgnoringCase Text.lower at same
  rw [beq_iff_eq] at same
  have whole : name.map Char.toLower = "config".toList ++ ('.' :: "cpp".toList) := same
  obtain ⟨stem, rest, rfl, isStem, isRest⟩ := List.map_eq_append_iff.1 whole
  obtain ⟨c, extension, rfl, isPoint, isExtension⟩ := List.map_eq_cons_iff.1 isRest
  obtain rfl := eq_point_of_toLower isPoint
  exact ⟨stem, extension, rfl, isStem, isExtension⟩

theorem not_mem_of_lower {c : Char} {text : Text} {lowered : List Char}
    (same : text.map Char.toLower = lowered) (other : c.toLower ∉ lowered) : c ∉ text := by
  intro member
  exact other (same ▸ List.mem_map_of_mem member)

/-- Text configs are among the files that are kept. -/
theorem isReferenceFile_of_text {name : Text} (isText : Text.sameIgnoringCase name textConfigName = true) :
    isReferenceFile ⟨name⟩ = true := by
  obtain ⟨stem, extension, rfl, isStem, isExtension⟩ := split_textConfigName isText
  have nonempty : stem ≠ [] := by
    rintro rfl
    cases isStem
  have some : extension ≠ [] := by
    rintro rfl
    cases isExtension
  have noPoint : '.' ∉ extension := not_mem_of_lower isExtension (by decide)
  have noSlash : '/' ∉ stem ++ '.' :: extension := by
    simp only [List.mem_append, List.mem_cons, not_or]
    exact ⟨not_mem_of_lower isStem (by decide), by decide, not_mem_of_lower isExtension (by decide)⟩
  rw [isReferenceFile, Path.extension?_of_point nonempty noPoint noSlash some]
  refine List.any_eq_true.2 ⟨"cpp".toList, by decide, ?_⟩
  unfold Text.sameIgnoringCase Text.lower
  rw [isExtension]
  decide

theorem isReferenceFile_of_endsWith (isText : endsWith textConfigName below = true) :
    below.getLast?.any (fun name => isReferenceFile ⟨name⟩) = true := by
  unfold endsWith at isText
  cases last : below.getLast? with
  | none =>
      rw [last] at isText
      cases isText
  | some name =>
      rw [last] at isText
      exact isReferenceFile_of_text isText

theorem endsWith_marker : endsWith textConfigName [markerName] = false := by
  decide

/-- What is kept of the text configs is all of them. -/
theorem exists_kept_iff_isText (distinct : tree.Distinct) (isText : endsWith textConfigName below = true) :
    (∃ content, Kept tree origin directories below content) ↔ IsText tree origin directories below := by
  constructor
  · rintro ⟨content, extracted, -⟩
    exact ⟨extracted, isText⟩
  · rintro ⟨extracted, -⟩
    have whole := extracted
    obtain ⟨stem, names, rfl, -, -, -, listed⟩ := extracted
    obtain ⟨-, content, executable, there⟩ := distinct.mem_filesAt_iff.1 listed
    refine ⟨content, whole, isReferenceFile_of_endsWith isText, executable, ?_⟩
    rwa [List.append_assoc] at there

/-- Whether the entry of an addon is as it was saved, from a tree with the extracted archives. -/
structure Stored (cache : ReferenceCache) (temp addon : Text) (directories : List Path)
    (tree next : FileTree) : Prop where
  formed : next.WellFormed
  valid : cache.state addon next = .valid
  found : next.find (cache.entry addon) = .ok (next.location (cache.entry addon), .directory)
  holds : Holds (next.location (cache.entry addon))
    (Kept tree (extractionRoot cache temp addon) directories) next

/-- A saved entry that nobody touches stays as it was saved. -/
theorem stored_of_saves (formed : tree.WellFormed) (separate : Separate cache temp addon tree)
    (sideBySide : SideBySide (extractionRoot cache temp addon) directories tree)
    (saves : Saves cache addon directories tree saved) (keeps : KeepsEntry cache addon saved next) :
    Stored cache temp addon directories tree next := by
  obtain ⟨within, -, found, ⟨executable, isMarker⟩, holds⟩ :=
    holds_of_saves formed separate sideBySide saves
  have place : next.location (cache.entry addon) = cache.entryPlace addon tree := by
    rw [keeps.location, within.location]
    rfl
  have placeSaved : cache.entryPlace addon saved = cache.entryPlace addon tree := within.location _
  have foundNext := keeps.find found
  refine ⟨keeps.formed, ?_, by rw [place, foundNext], ?_⟩
  · have placeNext : cache.entryPlace addon next = cache.entryPlace addon tree := place
    have isMarkerNext : next.entryAt? (cache.markerPlace addon next) =
        some (.file (markerText true).encode executable) := by
      rw [ReferenceCache.markerPlace, placeNext, ← placeSaved, keeps.inEntry, placeSaved]
      exact isMarker
    exact ReferenceCache.state_eq_valid (by rw [placeNext, foundNext]) isMarkerNext
  · rw [place]
    have moved := @KeepsEntry.holds cache addon saved next keeps
      (Kept tree (extractionRoot cache temp addon) directories)
    rw [placeSaved] at moved
    exact moved holds

/-- The configs in an entry, in path order, are the text configs that were extracted. -/
theorem Stored.configFiles_eq (stored : Stored cache temp addon directories tree next)
    (distinct : tree.Distinct) :
    ∃ belows : List Location, belows.Nodup ∧
      (∀ below, below ∈ belows ↔ IsText tree (extractionRoot cache temp addon) directories below) ∧
      ReferenceCache.configFiles (cache.entry addon) next =
        Path.sort (belows.map (cache.entry addon).descend) := by
  refine ⟨(next.filesAt (next.location (cache.entry addon))).filter (endsWith textConfigName), ?_, ?_, ?_⟩
  · exact (stored.formed.distinct.nodup_filesAt _).filter _
  · intro below
    rw [List.mem_filter, stored.formed.distinct.mem_filesAt_iff]
    constructor
    · rintro ⟨⟨nonempty, content, executable, there⟩, isText⟩
      rcases stored.holds.isSaved below content executable there with rfl | isKept
      · rw [endsWith_marker] at isText
        cases isText
      · exact (exists_kept_iff_isText distinct isText).1 ⟨content, isKept⟩
    · rintro isText
      obtain ⟨content, isKept⟩ := (exists_kept_iff_isText distinct isText.2).2 isText
      obtain ⟨executable, there⟩ := stored.holds.holds below content isKept
      refine ⟨⟨?_, content, executable, there⟩, isText.2⟩
      obtain ⟨⟨stem, names, rfl, -⟩, -⟩ := isText
      exact List.cons_ne_nil _ _
  · exact findFiles_eq stored.formed stored.found _

end AddonIndex.Indexing
