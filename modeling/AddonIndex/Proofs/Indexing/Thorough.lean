import AddonIndex.Proofs.Indexing.WorkStep
import AddonIndex.Proofs.Path.Order

/-!
# Work that no cancellation cuts short

A stage that is given up because the addon is cancelled leaves it cancelled. So
if an addon is not cancelled when the work on it is over, no stage was given up
for that reason: its configs were listed, either in its entry of the cache or by
the conversion, and each of them was read.
-/

namespace AddonIndex.Indexing

open Activity FileTree

variable {work : AddonWork} {tempRoot : Path} {begun ended : World} {moves : List (Move World)}
  {configs : List Path} {tree : FileTree} {status : StageStatus}

/-! ## Stages that come to their end -/

/-- Conversion does not stop. -/
theorem Completes.convert_completed {status : StageStatus}
    (completes : Completes work.addon work.convert begun (.ok (status, configs)) ended) :
    status = .completed := by
  have attains : Attains work.addon work.convert (begun.scene work.addon) fun answer _ =>
      ∀ status configs, answer = .ok (status, configs) → status = .completed :=
    AddonWork.attains_convert (fun _ _ => nofun) fun _ _ status configs same => by
      cases same
      rfl
  exact completes.attained attains AddonWork.stages_convert.follow status configs rfl

/-- Parsing does not stop. -/
theorem Completes.parse_completed
    (completes : Completes work.addon (work.parse configs) begun status ended) : status = .completed := by
  have attains : Attains work.addon (work.parse configs) (begun.scene work.addon) fun status _ =>
      status = .completed :=
    AddonWork.attains_parse rfl
  exact completes.attained attains (AddonWork.stages_parse configs).follow

/-! ## The work on an addon -/

/-- Whether the moves of the work on an addon, after some that come first, are those of stages of which
none is given up because of a cancellation, and which configs are listed for the addon, to be read from
which files. -/
inductive Thorough (work : AddonWork) (tempRoot : Path) (begun : World) :
    List (Move World) → World → List Path → FileTree → Prop
  /-- The configs are those in the entry of the cache. -/
  | cached {opening parsing : List (Move World)} {middle ended : World}
      (valid : work.cache.state work.addon.name begun.tree = .valid)
      (parses : Executes Interference
        (work.parse (ReferenceCache.configFiles (work.cache.entry work.addon.name) begun.tree))
        middle parsing ended (some .completed)) :
      Thorough work tempRoot begun (opening ++ parsing) ended
        (ReferenceCache.configFiles (work.cache.entry work.addon.name) begun.tree) begun.tree
  /-- There are no archives, and so there are no configs. -/
  | empty {opening extracting : List (Move World)} {middle ended : World}
      (notValid : work.cache.state work.addon.name begun.tree ≠ .valid)
      (noContainer : archiveContainer? work.addon.directory begun.tree = .ok none)
      (extracts : Executes Interference (work.extract tempRoot) middle extracting ended
        (some (.ok .stopped))) :
      Thorough work tempRoot begun (opening ++ extracting) ended [] begun.tree
  /-- The configs are those that the conversion comes back with. Saving stops only if the entry cannot
  be prepared. -/
  | indexed {opening extracting converting parsing saving : List (Move World)}
      {middle extracted converted parsed ended : World} {configs : List Path} {status : StageStatus}
      (notValid : work.cache.state work.addon.name begun.tree ≠ .valid)
      (extracts : Executes Interference (work.extract tempRoot) middle extracting extracted
        (some (.ok .completed)))
      (extractsAll : work.Extracts tempRoot (middle.scene work.addon) (extracted.scene work.addon))
      (converts : Executes Interference work.convert extracted converting converted
        (some (.ok (.completed, configs))))
      (convertsAll : work.ConvertsAll (extracted.scene work.addon) (converted.scene work.addon))
      (parses : Executes Interference (work.parse configs) converted parsing parsed (some .completed))
      (saves : Executes Interference work.save parsed saving ended (some status))
      (savesAll : (parsed.scene work.addon).save work.cache work.addon.name =
        (status, ended.scene work.addon)) :
      Thorough work tempRoot begun (opening ++ (extracting ++ (converting ++ (parsing ++ saving)))) ended
        configs converted.tree

/-- Whether configs are in path order and what can be read of them is all that is added to the configs
of an addon. -/
structure Reads (work : AddonWork) (begun ended : World) (configs : List Path) (tree : FileTree) : Prop where
  sorted : configs.Pairwise fun first second => first.le second = true
  configsOf : ended.configsOf work.addon = (begun.configsOf work.addon).map
    (· ++ parsedConfigs work.environment.reader tree configs)

namespace AddonWork

theorem attains_readFromCache_of_not_valid {scene : Scene} {goal : Bool → Scene → Prop}
    (notValid : work.cache.state work.addon.name scene.tree ≠ .valid) (reached : goal false scene) :
    Attains work.addon work.readFromCache scene goal := by
  refine .bind (attains_lookAt ?_)
  split
  · exact attains_pure reached
  · exact .bind (attains_note (attains_pure reached))
  · rename_i valid
    exact absurd valid notValid

end AddonWork

end AddonIndex.Indexing
