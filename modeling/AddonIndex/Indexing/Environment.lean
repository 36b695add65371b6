import AddonIndex.Configuration.Settings
import AddonIndex.Reference.Cache
import AddonIndex.Tool.Archive
import AddonIndex.WorkerPool
import AddonIndex.ClassConfig.Read

/-!
# What an indexing run is given

The tools, the reader of configs, the settings, and the workers that cannot be
started. Together with the files and the selection of addons they determine what
a run can do.
-/

namespace AddonIndex.Indexing

open ClassConfig

/-- What reading a config comes back with. -/
structure ReadEffect where
  /-- The names of addons that are cancelled before the config is read. -/
  cancelled : List Text := []
  result : Except ConfigError ParsedConfig

/-- How configs are read: the config, and the directory for included files. -/
abbrev ConfigReader := (config includeDirectory : Path) → FileTree → ReadEffect

/-- The reader that cancels nothing. -/
def plainReader : ConfigReader := fun config includeDirectory tree =>
  { result := readConfig tree config includeDirectory }

/-- What a run is given. -/
structure Environment where
  tools : ArchiveTools
  reader : ConfigReader := plainReader
  settings : Settings := {}
  refusals : Refusals := fun _ => none

/-- The workers of a run. -/
def Environment.pool (environment : Environment) : WorkerPool :=
  WorkerPool.ofSize environment.settings.workerThreads "addon-indexer worker"

end AddonIndex.Indexing
