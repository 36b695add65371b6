import AddonIndex.Indexing.Stages
import AddonIndex.Proofs.FileTree.Sibling
import Mathlib.Data.List.Pairwise

/-!
# Which configs are found

Whatever directories archives are extracted to, the binary configs found in them are all files of that name in any
case, and the text configs are those that have no binary config beside them. As long as the directories have no file
in common, each of them is found once.
-/

namespace AddonIndex.Indexing

open FileTree

variable {tree : FileTree} {directories : List Path} {directory other file : Path} {names others : Location}
  {wanted : Text}

/-- Whether the last name of a location is a given one, in any case. -/
def endsWith (name : Text) (below : Location) : Bool := below.getLast?.any (Text.sameIgnoringCase · name)

theorem endsWith_concat (name : Text) (front : Location) (last : Text) :
    endsWith name (front ++ [last]) = Text.sameIgnoringCase last name := by
  rw [endsWith, List.getLast?_concat, Option.any_some]

/-- The configs of several directories, one directory after another. -/
def allConfigs (directories : List Path) (tree : FileTree) : ConfigFiles where
  binaries := directories.flatMap fun directory => (configFiles directory tree).binaries
  texts := directories.flatMap fun directory => (configFiles directory tree).texts

/-! ## Files below directories -/

/-- Whether there is a file below a directory, by some names. -/
structure HasFile (tree : FileTree) (directory : Path) (names : Location) : Prop where
  there : tree.isDirectory directory = true
  names_ne_nil : names ≠ []
  isFile : ∃ content executable, tree.entryAt? (tree.location directory ++ names) = some (.file content executable)

namespace HasFile

theorem areNames (has : HasFile tree directory names) (formed : tree.WellFormed) :
    ∀ name ∈ names, Path.IsName name := by
  rcases has.isFile with ⟨content, executable, isFile⟩
  exact fun name member => formed.names isFile name (List.mem_append_right _ member)

theorem text_ne_nil (has : HasFile tree directory names) : directory.text ≠ [] := by
  rcases isDirectory_iff.1 has.there with ⟨place, found⟩
  exact (find_eq_directory_iff.1 found).1.1

theorem location_eq (has : HasFile tree directory names) (formed : tree.WellFormed) :
    tree.location (directory.descend names) = tree.location directory ++ names :=
  location_descend tree directory (has.areNames formed)

end HasFile

theorem mem_filesBelow_iff_hasFile (formed : tree.WellFormed) (noFile : tree.isFile directory = false) :
    file ∈ tree.filesBelow directory ↔ ∃ names, HasFile tree directory names ∧ file = directory.descend names := by
  cases there : tree.isDirectory directory with
  | false =>
      rw [filesBelow_of_missing there noFile]
      refine iff_of_false List.not_mem_nil ?_
      rintro ⟨names, has, -⟩
      exact Bool.false_ne_true (there.symm.trans has.there)
  | true =>
      rcases isDirectory_iff.1 there with ⟨place, found⟩
      obtain rfl := find_location found
      rw [filesBelow_eq found, List.mem_map]
      constructor
      · rintro ⟨names, listed, rfl⟩
        rcases formed.distinct.mem_filesAt_iff.1 listed with ⟨names_ne_nil, isFile⟩
        exact ⟨names, ⟨there, names_ne_nil, isFile⟩, rfl⟩
      · rintro ⟨names, has, rfl⟩
        exact ⟨names, formed.distinct.mem_filesAt_iff.2 ⟨has.names_ne_nil, has.isFile⟩, rfl⟩

theorem isNamed_join (base : Path) {name : Text} (isName : Path.IsName name) (wanted : Text) :
    isNamed wanted (base.join name) = Text.sameIgnoringCase name wanted := by
  rw [isNamed, Path.fileName?_join base isName]

theorem HasFile.isNamed_eq (has : HasFile tree directory names) (formed : tree.WellFormed) (wanted : Text) :
    isNamed wanted (directory.descend names) = endsWith wanted names := by
  have areNames := has.areNames formed
  rcases List.eq_nil_or_concat names with rfl | ⟨front, last, rfl⟩
  · exact absurd rfl has.names_ne_nil
  · rw [List.concat_eq_append] at areNames ⊢
    rw [Path.descend_append, Path.descend_singleton, isNamed_join _ (areNames last (by simp)), endsWith_concat]

/-! ## Configs in the directories -/

/-- Whether a path is that of a config of a given name, in any case, below one of several directories. -/
def IsConfig (tree : FileTree) (directories : List Path) (wanted : Text) (file : Path) : Prop :=
  ∃ directory ∈ directories, ∃ names, HasFile tree directory names ∧ endsWith wanted names = true ∧
    file = directory.descend names

/-- Whether two paths name something in the same directory. -/
def Beside (tree : FileTree) (first second : Path) : Prop :=
  (tree.location first).dropLast = (tree.location second).dropLast

/-- Whether no file is below both of two directories. -/
def ShareNone (tree : FileTree) (first second : Path) : Prop :=
  ∀ names others, HasFile tree first names → HasFile tree second others →
    tree.location first ++ names ≠ tree.location second ++ others

/-- Different directories of a family of which no two share a file share none. -/
theorem shareNone_of_pairwise (disjoint : directories.Pairwise (ShareNone tree)) :
    ∀ first ∈ directories, ∀ second ∈ directories, first ≠ second → ShareNone tree first second := by
  have symmetric : Std.Symm (ShareNone tree) :=
    ⟨fun first second apart names others has otherHas same => apart others names otherHas has same.symm⟩
  exact fun first inFirst second inSecond differ => disjoint.forall inFirst inSecond differ

/-- What is beside a file below a directory is below that directory. -/
theorem HasFile.exists_beside (has : HasFile tree directory names) (otherHas : HasFile tree other others)
    (beside : (tree.location other ++ others).dropLast = (tree.location directory ++ names).dropLast) :
    ∃ found, HasFile tree directory found ∧ tree.location other ++ others = tree.location directory ++ found := by
  rw [List.dropLast_append_of_ne_nil otherHas.names_ne_nil, List.dropLast_append_of_ne_nil has.names_ne_nil] at beside
  have split : tree.location other ++ others =
      tree.location directory ++ (names.dropLast ++ [others.getLast otherHas.names_ne_nil]) := by
    rw [← List.append_assoc, ← beside, List.append_assoc, List.dropLast_append_getLast]
  exact ⟨_, ⟨has.there, by simp, split ▸ otherHas.isFile⟩, split⟩

section Family

variable (formed : tree.WellFormed) (noFile : ∀ directory ∈ directories, tree.isFile directory = false)

include formed

theorem beside_descend_iff (has : HasFile tree directory names) (otherHas : HasFile tree other others) :
    Beside tree (other.descend others) (directory.descend names) ↔
      (tree.location other ++ others).dropLast = (tree.location directory ++ names).dropLast := by
  rw [Beside, has.location_eq formed, otherHas.location_eq formed]

/-- Files below the same directory have the same parent exactly if they are beside each other. -/
theorem parent?_eq_iff_beside (has : HasFile tree directory names) (otherHas : HasFile tree directory others) :
    (directory.descend others).parent? = (directory.descend names).parent? ↔
      Beside tree (directory.descend others) (directory.descend names) := by
  rw [parent?_descend_eq_iff has.text_ne_nil otherHas.names_ne_nil (otherHas.areNames formed) has.names_ne_nil
    (has.areNames formed), beside_descend_iff formed has otherHas,
    List.dropLast_append_of_ne_nil has.names_ne_nil, List.dropLast_append_of_ne_nil otherHas.names_ne_nil,
    List.append_cancel_left_eq]

include noFile

theorem mem_binaries_iff :
    file ∈ (allConfigs directories tree).binaries ↔ IsConfig tree directories binaryConfigName file := by
  unfold allConfigs IsConfig
  simp only [List.mem_flatMap, configFiles, Path.sort, List.mem_mergeSort, List.mem_filter]
  refine exists_congr fun directory => and_congr_right fun member => ?_
  rw [mem_filesBelow_iff_hasFile formed (noFile directory member)]
  constructor
  · rintro ⟨⟨names, has, rfl⟩, isBinary⟩
    rw [has.isNamed_eq formed] at isBinary
    exact ⟨names, has, isBinary, rfl⟩
  · rintro ⟨names, has, isBinary, rfl⟩
    rw [← has.isNamed_eq formed] at isBinary
    exact ⟨⟨names, has, rfl⟩, isBinary⟩

theorem mem_texts_iff
    (apart : ∀ first ∈ directories, ∀ second ∈ directories, first ≠ second → ShareNone tree first second) :
    file ∈ (allConfigs directories tree).texts ↔ IsConfig tree directories Reference.textConfigName file ∧
      ∀ binary, IsConfig tree directories binaryConfigName binary → ¬ Beside tree binary file := by
  unfold allConfigs
  simp only [List.mem_flatMap, configFiles, Path.sort, List.mem_mergeSort, List.mem_filter, Bool.and_eq_true,
    Bool.not_eq_true', List.any_eq_false, beq_iff_eq]
  constructor
  · rintro ⟨directory, member, found, isText, alone⟩
    rcases (mem_filesBelow_iff_hasFile formed (noFile directory member)).1 found with ⟨names, has, rfl⟩
    rw [has.isNamed_eq formed] at isText
    refine ⟨⟨directory, member, names, has, isText, rfl⟩, ?_⟩
    rintro _ ⟨other, otherMember, others, otherHas, isBinary, rfl⟩ beside
    rcases has.exists_beside otherHas ((beside_descend_iff formed has otherHas).1 beside) with ⟨binary, hasBinary, same⟩
    obtain rfl : other = directory := by
      by_contra differ
      exact apart other otherMember directory member differ others binary otherHas hasBinary same
    refine alone (other.descend others) ⟨(mem_filesBelow_iff_hasFile formed (noFile other member)).2
      ⟨others, otherHas, rfl⟩, ?_⟩ ((parent?_eq_iff_beside formed has otherHas).2 beside)
    rw [otherHas.isNamed_eq formed, isBinary]
  · rintro ⟨⟨directory, member, names, has, isText, rfl⟩, alone⟩
    rw [← has.isNamed_eq formed] at isText
    have noDirectory := noFile directory member
    refine ⟨directory, member, (mem_filesBelow_iff_hasFile formed noDirectory).2 ⟨names, has, rfl⟩, isText, ?_⟩
    rintro binary ⟨found, isBinary⟩ same
    rcases (mem_filesBelow_iff_hasFile formed noDirectory).1 found with ⟨others, otherHas, rfl⟩
    rw [otherHas.isNamed_eq formed] at isBinary
    exact alone _ ⟨directory, member, others, otherHas, isBinary, rfl⟩
      ((parent?_eq_iff_beside formed has otherHas).1 same)

variable (disjoint : directories.Pairwise (ShareNone tree))

include disjoint

/-- Whatever is chosen from the files of different directories, no file is chosen twice. -/
theorem nodup_flatMap_filesBelow (wanted : Path → Path → Bool) :
    (directories.flatMap fun directory =>
      Path.sort ((tree.filesBelow directory).filter (wanted directory))).Nodup := by
  have exists_names : ∀ directory ∈ directories, ∀ file,
      file ∈ Path.sort ((tree.filesBelow directory).filter (wanted directory)) →
        ∃ names, HasFile tree directory names ∧ file = directory.descend names := by
    intro directory member file found
    rw [Path.sort, List.mem_mergeSort, List.mem_filter] at found
    exact (mem_filesBelow_iff_hasFile formed (noFile directory member)).1 found.1
  refine List.nodup_flatMap.2 ⟨fun directory member => ?_, ?_⟩
  · refine (List.mergeSort_perm _ _).nodup_iff.2 (List.Nodup.filter _ ?_)
    cases there : tree.isDirectory directory with
    | false =>
        rw [filesBelow_of_missing there (noFile directory member)]
        exact List.nodup_nil
    | true =>
        rcases isDirectory_iff.1 there with ⟨place, found⟩
        rw [filesBelow_eq found]
        refine List.Nodup.map_on (fun first inFirst second inSecond same => ?_) (formed.distinct.nodup_filesAt _)
        have places := congrArg tree.location same
        rw [location_descend _ _ (formed.names_of_mem_filesAt inFirst).2,
          location_descend _ _ (formed.names_of_mem_filesAt inSecond).2] at places
        exact List.append_cancel_left places
  · refine List.Pairwise.imp_of_mem (fun {first second} inFirst inSecond apart => ?_) disjoint
    intro file inBoth inSecondToo
    rcases exists_names first inFirst file inBoth with ⟨names, has, rfl⟩
    rcases exists_names second inSecond _ inSecondToo with ⟨others, otherHas, same⟩
    have places := congrArg tree.location same
    rw [has.location_eq formed, otherHas.location_eq formed] at places
    exact apart names others has otherHas places

theorem nodup_binaries : (allConfigs directories tree).binaries.Nodup :=
  nodup_flatMap_filesBelow formed noFile disjoint fun _ => isNamed binaryConfigName

theorem nodup_texts : (allConfigs directories tree).texts.Nodup :=
  nodup_flatMap_filesBelow formed noFile disjoint _

end Family

end AddonIndex.Indexing
