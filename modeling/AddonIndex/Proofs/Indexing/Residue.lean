import AddonIndex.Proofs.Indexing.Upheld

/-!
# What a run leaves behind

The extraction directories of an addon are deleted at the end of its turn, and the directory for all of them at the end
of the run, however it ends; what cannot be deleted is reported. What was there before under a name like that of this
directory is not touched.
-/

namespace AddonIndex.Indexing

open Activity FileTree FileOp

variable {base : FileTree} {root path : Path} {logPath : Option Path} {place : Location} {world after : World}
  {moves : List (Move World)} {environment : Environment} {selection : Selection} {tempRoot : Path}

/-- Where the log is opened no more is done than to empty its file. -/
theorem leads_openAt {related : FileTree → FileTree → Prop} (refl : ∀ tree, related tree tree)
    (empties : ∀ path ∈ logPath, Leads related (writeBytes path ByteArray.empty)) :
    Leads related (RunLog.openAt logPath) := by
  intro tree
  unfold RunLog.openAt
  cases logPath with
  | none => exact refl tree
  | some path =>
      have written := empties path rfl tree
      simp only
      split
      · rename_i wrote
        rwa [wrote] at written
      · rename_i wrote
        rwa [wrote] at written

/-- The directory for extracted archives can be removed. -/
theorem Unharmed.removeTree (unharmed : Unharmed base root logPath world) (isFresh : IsFresh base root tempRoot) :
    Unharmed base root logPath { world with tree := ((removeTree tempRoot).run world.tree).1 } := by
  apply unharmed.run
  apply spares_removeTree
  intro below isReserved
  exact (isFresh.isFree.apart isReserved).1 (List.prefix_append _ _)

/-- Whether nothing of a run is there yet. -/
structure Unstarted (world : World) : Prop where
  live : world.channel.Live
  tempRoot : world.tempRoot = none
  extracted : world.extracted = []
  logPath : world.logPath = none

/-- Files before a run: an addon with one archive, and what an earlier run left in the reference root. -/
def littered : World where
  tree := { entries := [(["mods".toList], .directory), (["mods".toList, "@A".toList], .directory),
    (["mods".toList, "@A".toList, "addons".toList], .directory),
    (["mods".toList, "@A".toList, "addons".toList, "main.pbo".toList], .file ByteArray.empty false),
    (["ref".toList], .directory), (["ref".toList, tempRootName], .directory),
    (["ref".toList, tempRootName, "@A".toList], .directory),
    (["ref".toList, "_addonIndexerTemp.log".toList], .file (Text.encode "old".toList) false)] }

/-- The selection of the addon. -/
def modsOnly : Selection := { roots := ["mods"], referenceDirectory := "ref", denied := [], allowed := [] }

/-- A run that unpacks a config, with a log of its own. -/
def litteredRun : Run Unit :=
  run { tools := unpackingTools [(binaryConfigName, [])] "class A {};" } modsOnly (some ⟨"run.log".toList⟩)

theorem named_littered : littered.tree.Named :=
  ⟨by decide +kernel, by decide +kernel⟩

end AddonIndex.Indexing
