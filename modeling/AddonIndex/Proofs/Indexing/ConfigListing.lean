import AddonIndex.Proofs.Indexing.Agreement
import AddonIndex.Proofs.Indexing.StageOrder

/-!
# Each config once

After conversion each text config is listed once, and so is the text of each binary config that was converted, however
the binary configs were shared out among workers. The converter is called once for each binary config. But in a file
system that tells cases apart two binary configs can be side by side. They have the same text, which then is written
twice, and listed twice if both conversions succeed.
-/

namespace AddonIndex.Indexing

open Activity FileTree Reference AddonWork

variable {work : AddonWork} {begun ended : World} {tree : FileTree} {directories : List Path} {binary other : Path}
  {calls : List (Path × Bool)}

/-! ## Texts of binary configs -/

section Family

variable (formed : tree.WellFormed)

include formed

/-- A binary config is converted to a text beside it. -/
theorem IsConfig.location_convertedConfig {wanted : Text} (isConfig : IsConfig tree directories wanted binary) :
    tree.location (convertedConfig binary) = (tree.location binary).dropLast ++ [textConfigName] := by
  rcases isConfig with ⟨directory, -, names, has, -, rfl⟩
  rw [convertedConfig, location_withFileName_descend has.text_ne_nil has.names_ne_nil (has.areNames formed)
    isName_textConfigName, has.location_eq formed, List.dropLast_append_of_ne_nil has.names_ne_nil, List.append_assoc]

/-- Binary configs have the same text exactly if they are side by side. -/
theorem convertedConfig_eq_iff
    (apart : ∀ first ∈ directories, ∀ second ∈ directories, first ≠ second → ShareNone tree first second)
    (isBinary : IsConfig tree directories binaryConfigName binary)
    (otherIsBinary : IsConfig tree directories binaryConfigName other) :
    convertedConfig binary = convertedConfig other ↔ Beside tree binary other := by
  constructor
  · intro same
    have places := congrArg tree.location same
    rw [isBinary.location_convertedConfig formed, otherIsBinary.location_convertedConfig formed] at places
    exact (List.append_inj' places rfl).1
  · rcases isBinary with ⟨directory, member, names, has, -, rfl⟩
    rcases otherIsBinary with ⟨otherDirectory, otherMember, others, otherHas, -, rfl⟩
    intro beside
    rcases otherHas.exists_beside has ((beside_descend_iff formed otherHas has).1 beside) with ⟨found, hasFound, same⟩
    obtain rfl : directory = otherDirectory := by
      by_contra differ
      exact apart directory member otherDirectory otherMember differ names found has hasFound same
    have isFileName : ∀ {below}, HasFile tree directory below →
        (directory.descend below).fileName?.isSome = true := by
      intro below hasBelow
      rcases List.eq_nil_or_concat below with rfl | ⟨front, last, rfl⟩
      · exact absurd rfl hasBelow.names_ne_nil
      · rw [List.concat_eq_append, Path.descend_append, Path.descend_singleton,
          Path.fileName?_join _ (hasBelow.areNames formed last (by simp))]
        rfl
    rw [convertedConfig, convertedConfig, Path.withFileName, Path.withFileName, if_pos (isFileName has),
      if_pos (isFileName otherHas), (parent?_eq_iff_beside formed otherHas has).2 beside]

end Family

/-- Whether configs are those that are to be parsed after binary configs below some directories were converted, of which
it is known in which order that was done and what came of it. -/
structure ListsConfigs (tree : FileTree) (directories : List Path) (calls : List (Path × Bool))
    (configs : List Path) : Prop where
  called_once : (calls.map Prod.fst).Nodup
  mem_called_iff : ∀ binary, binary ∈ calls.map Prod.fst ↔ IsConfig tree directories binaryConfigName binary
  sibling : ∀ binary ∈ calls.map Prod.fst,
    tree.location (convertedConfig binary) = (tree.location binary).dropLast ++ [textConfigName]
  sorted : configs.Pairwise fun first second => first.le second = true
  mem_iff : ∀ config, config ∈ configs ↔
    (IsConfig tree directories textConfigName config ∧
      ∀ binary, IsConfig tree directories binaryConfigName binary → ¬ Beside tree binary config) ∨
    ∃ binary, (binary, true) ∈ calls ∧ config = convertedConfig binary
  nodup_iff : configs.Nodup ↔ ∀ binary other, (binary, true) ∈ calls → (other, true) ∈ calls →
    Beside tree binary other → binary = other
  targets_nodup_iff : (calls.map fun call => convertedConfig call.1).Nodup ↔
    ∀ binary other, IsConfig tree directories binaryConfigName binary →
      IsConfig tree directories binaryConfigName other → Beside tree binary other → binary = other

/-- Texts of different files are different if no two of the files have the same. -/
theorem nodup_map_convertedConfig_iff {binaries : List Path} (nodup : binaries.Nodup)
    (same_iff : ∀ binary ∈ binaries, ∀ other ∈ binaries, convertedConfig binary = convertedConfig other ↔
      Beside tree binary other) :
    (binaries.map convertedConfig).Nodup ↔
      ∀ binary other, binary ∈ binaries → other ∈ binaries → Beside tree binary other → binary = other := by
  rw [List.nodup_map_iff_inj_on nodup]
  constructor
  · intro injective binary other member otherMember beside
    exact injective binary member other otherMember ((same_iff binary member other otherMember).2 beside)
  · intro single binary member other otherMember same
    exact single binary other member otherMember ((same_iff binary member other otherMember).1 same)

theorem mem_succeeded_iff : binary ∈ (calls.filter Prod.snd).map Prod.fst ↔ (binary, true) ∈ calls := by
  rw [List.mem_map]
  constructor
  · rintro ⟨⟨_, succeeded⟩, member, rfl⟩
    obtain ⟨member, rfl⟩ := List.mem_filter.1 member
    exact member
  · exact fun member => ⟨_, List.mem_filter.2 ⟨member, rfl⟩, rfl⟩

/-- The texts to parse, in path order, once all binary configs were done. -/
theorem CallsAll.listsConfigs {scene after : Scene} {deeds : List Deed} (formed : scene.tree.WellFormed)
    (noFile : ∀ directory ∈ scene.extracted, scene.tree.isFile directory = false)
    (disjoint : scene.extracted.Pairwise (ShareNone scene.tree))
    (done : CallsAll work.conversionDuty conversionHabit (allConfigs scene.extracted scene.tree).binaries
      { scene with converted := (allConfigs scene.extracted scene.tree).texts } calls deeds after) :
    ListsConfigs scene.tree scene.extracted calls (Path.sort after.converted) := by
  have apart := shareNone_of_pairwise disjoint
  have nodup : (calls.map Prod.fst).Nodup := done.dealt.nodup_iff.2 (nodup_binaries formed noFile disjoint)
  have called_iff : ∀ binary, binary ∈ calls.map Prod.fst ↔
      IsConfig scene.tree scene.extracted binaryConfigName binary :=
    fun binary => done.dealt.mem_iff.trans (mem_binaries_iff formed noFile)
  have same_iff : ∀ binary ∈ calls.map Prod.fst, ∀ other ∈ calls.map Prod.fst,
      convertedConfig binary = convertedConfig other ↔ Beside scene.tree binary other :=
    fun binary member other otherMember => convertedConfig_eq_iff formed apart ((called_iff binary).1 member)
      ((called_iff other).1 otherMember)
  have succeeded : (calls.filter Prod.snd).map Prod.fst ⊆ calls.map Prod.fst :=
    List.map_subset _ (List.filter_subset_self calls)
  have converted : after.converted.Perm ((allConfigs scene.extracted scene.tree).texts ++
      ((calls.filter Prod.snd).map Prod.fst).map convertedConfig) := done.converted
  constructor
  · exact nodup
  · exact called_iff
  · exact fun binary member => ((called_iff binary).1 member).location_convertedConfig formed
  · exact Path.pairwise_sort _
  · intro config
    rw [Path.sort, List.mem_mergeSort, converted.mem_iff, List.mem_append, mem_texts_iff formed noFile apart, List.mem_map]
    simp only [mem_succeeded_iff, eq_comm]
  · -- A text that was found has no binary config beside it, so no conversion leads to it.
    have distinct : (allConfigs scene.extracted scene.tree).texts.Disjoint
        (((calls.filter Prod.snd).map Prod.fst).map convertedConfig) := by
      intro config isText isConverted
      rcases List.mem_map.1 isConverted with ⟨binary, member, rfl⟩
      have isBinary := (called_iff binary).1 (succeeded member)
      refine ((mem_texts_iff formed noFile apart).1 isText).2 binary isBinary ?_
      rw [Beside, isBinary.location_convertedConfig formed, List.dropLast_concat]
    rw [Path.sort, (List.mergeSort_perm _ _).nodup_iff, converted.nodup_iff, List.nodup_append',
      nodup_map_convertedConfig_iff (nodup.sublist (List.filter_sublist.map _))
        fun binary member other otherMember => same_iff binary (succeeded member) other (succeeded otherMember)]
    simp only [mem_succeeded_iff]
    exact ⟨fun listed => listed.2.1, fun single => ⟨nodup_texts formed noFile disjoint, single, distinct⟩⟩
  · have targets : (calls.map fun call => convertedConfig call.1) = (calls.map Prod.fst).map convertedConfig := by
      rw [List.map_map]
      rfl
    rw [targets, nodup_map_convertedConfig_iff nodup same_iff]
    simp only [called_iff]

/-- Where no worker is refused or aborted and the addon is not cancelled, conversion lists the configs below all
extraction directories. The converter has then been called for one binary config after the other, and each of its
answers is the one that was gone by. -/
theorem AddonWork.listsConfigs_of_convert
    (never : ∀ binary text limit, NeverAborts (work.environment.tools.convert binary text limit))
    (formed : begun.tree.WellFormed) (noFile : ∀ directory ∈ begun.extracted, begun.tree.isFile directory = false)
    (disjoint : begun.extracted.Pairwise (ShareNone begun.tree))
    {answer : Except RunFailure (StageStatus × List Path)}
    (completes : Completes work.addon work.convert begun answer ended)
    (unrefused : ∀ refusal, answer ≠ .error (.workerRefused refusal)) :
    ∃ configs calls, answer = .ok (.completed, configs) ∧
      doEach work.conversionDuty.action (calls.map Prod.fst) begun.tree = (ended.tree, calls) ∧
      ListsConfigs begun.tree begun.extracted calls configs := by
  rcases convertsTo_of_completes never completes unrefused with ⟨configs, answered, rfl, calls, deeds, done⟩
  exact ⟨_, calls, answered, done.doEach_eq plain_conversionDuty, done.listsConfigs formed noFile disjoint⟩

/-- A world with two extraction directories, one with a binary config beside a text config, and one with a text config
alone. -/
def assorted : World where
  tree := { entries := [(["one".toList], .directory),
    (["one".toList, "Config.BIN".toList], .file ByteArray.empty false),
    (["one".toList, "config.cpp".toList], .file ByteArray.empty false),
    (["two".toList], .directory), (["two".toList, "fn".toList], .directory),
    (["two".toList, "fn".toList, "CONFIG.cpp".toList], .file ByteArray.empty false)] }
  handles := [unpackingWork.addon]
  progress := [{}]
  extracted := ["one", "./two/fn/.."]

/-- The configs of both directories are listed there. -/
theorem listsConfigs_assorted :
    IsConfig assorted.tree assorted.extracted binaryConfigName "one/Config.BIN" ∧
    IsConfig assorted.tree assorted.extracted textConfigName "./two/fn/../fn/CONFIG.cpp" ∧
    ∃ answer configs calls, Completes unpackingWork.addon unpackingWork.convert assorted answer
        (unpackingWork.convert.run assorted).1 ∧ answer = .ok (.completed, configs) ∧
      ListsConfigs assorted.tree assorted.extracted calls configs := by
  have formed : assorted.tree.WellFormed :=
    wellFormed_of_entries (by decide +kernel) (by decide +kernel) (by decide +kernel)
  have disjoint : assorted.extracted.Pairwise (ShareNone assorted.tree) := by
    refine List.pairwise_pair.2 fun names others _ _ same => ?_
    have one : assorted.tree.location "one" = ["one".toList] := by decide +kernel
    have two : assorted.tree.location "./two/fn/.." = ["two".toList] := by decide +kernel
    rw [one, two] at same
    exact absurd (List.cons.inj same).1 (by decide)
  have ended : ((unpackingWork.convert.run assorted).2.any fun answer => answer.isOk) = true := by decide +kernel
  obtain ⟨answer, isAnswer, accepted⟩ := (Option.any_eq_true _ _).1 ended
  have completes : Completes unpackingWork.addon unpackingWork.convert assorted answer _ :=
    completes_run (by decide +kernel) isAnswer (by decide +kernel)
  obtain ⟨configs, calls, answered, -, lists⟩ := @listsConfigs_of_convert unpackingWork assorted _ (fun _ _ _ _ => nofun)
    formed (by decide +kernel) disjoint answer completes (by rintro refusal rfl; cases accepted)
  refine ⟨?_, ?_, answer, configs, calls, completes, answered, lists⟩
  · exact ⟨"one", by decide, ["Config.BIN".toList], ⟨by decide +kernel, by decide, _, _, rfl⟩, by decide +kernel,
      by decide +kernel⟩
  · exact ⟨"./two/fn/..", by decide +kernel, ["fn".toList, "CONFIG.cpp".toList],
      ⟨by decide +kernel, by decide, _, _, rfl⟩, by decide +kernel, by decide +kernel⟩

/-- A tree with two binary configs in one directory. -/
def twinTree : FileTree where
  entries := [(["one".toList], .directory), (["one".toList, "CONFIG.BIN".toList], .file ByteArray.empty false),
    (["one".toList, "config.bin".toList], .file ByteArray.empty false)]

/-- Both are to be converted, to the same text. -/
theorem twins_have_same_text :
    ¬ ∀ (tree : FileTree) (directories : List Path), tree.WellFormed →
      directories.Pairwise (ShareNone tree) →
        ((allConfigs directories tree).binaries.map convertedConfig).Nodup := by
  intro claimed
  have nodup := claimed twinTree ["one"]
    (wellFormed_of_entries (by decide +kernel) (by decide +kernel) (by decide +kernel)) (List.pairwise_singleton _ _)
  have unsorted : (allConfigs ["one"] twinTree).binaries.Perm
      ((twinTree.filesBelow "one").filter (isNamed binaryConfigName)) := by
    rw [allConfigs, List.flatMap_singleton]
    exact List.mergeSort_perm _ _
  exact absurd ((unsorted.map convertedConfig).nodup_iff.1 nodup) (by decide +kernel)

end AddonIndex.Indexing
