import AddonIndex.ClassConfig.Read
import AddonIndex.Number.Binary64
import AddonIndex.Path

/-!
# Addons while they are indexed

A handle identifies an addon during a run. What changes while the addon is
indexed is its progress: whether it is cancelled, how much of the current stage
is done, the configs read so far, and the entry of the reference cache.
-/

namespace AddonIndex

/-- An addon of a run. The index tells addons of one directory apart. -/
structure Handle where
  index : Nat
  directory : Path
deriving DecidableEq, Inhabited, Repr

/-- The name of the addon in a directory: the name of the directory. -/
def addonName (directory : Path) : Text := directory.fileName?.getD directory.text

/-- The name of an addon. -/
def Handle.name (handle : Handle) : Text := addonName handle.directory

/-- What changes while an addon is indexed. -/
structure Progress where
  cancelled : Bool := false
  /-- The units of work done in the current stage. -/
  current : Nat := 0
  /-- The units of work of the current stage. -/
  total : Nat := 0
  configs : List ClassConfig.ParsedConfig := []
  /-- The entry of the reference cache, once it is known. -/
  reference : Option Path := none
deriving Inhabited, Repr

namespace Progress

/-- Cancel the addon. -/
def cancel (progress : Progress) : Progress := { progress with cancelled := true }

/-- Begin a stage with the given units of work. -/
def beginWork (progress : Progress) (units : Nat) : Progress :=
  { progress with current := 0, total := units }

/-- Count one finished unit of work. -/
def advance (progress : Progress) : Progress :=
  { progress with current := progress.current + 1 }

/-- Keep a config that was read. -/
def addConfig (progress : Progress) (config : ClassConfig.ParsedConfig) : Progress :=
  { progress with configs := progress.configs ++ [config] }

/-- Set the entry of the reference cache. Only the first setting counts. -/
def setReference (progress : Progress) (entry : Path) : Progress :=
  { progress with reference := progress.reference.or (some entry) }

/-- The part of the current stage that is done, between zero and one. -/
def fraction (progress : Progress) : Binary64 :=
  if progress.total = 0 then Binary64.zero
  else Binary64.ofRatio false (min progress.current progress.total) progress.total

end Progress

/-- An indexed addon, as it is published. -/
structure Addon where
  name : Text
  directory : Path
  reference : Option Path
  configs : List ClassConfig.ConfigFile
  definitions : OrderedMap Text
deriving Inhabited, Repr

/-- The addon of a finished handle. The definitions of all its configs are
merged; a later one replaces an earlier one of the same name. -/
def Addon.ofHandle (handle : Handle) (progress : Progress) : Addon :=
  { name := handle.name
    directory := handle.directory
    reference := progress.reference
    configs := progress.configs.map (·.file)
    definitions := progress.configs.foldl
      (fun definitions config => definitions.insertAll config.definitions) [] }

end AddonIndex
