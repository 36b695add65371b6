import AddonIndex.Path
import AddonIndex.Tool.Duration

/-!
# Settings of the indexer

Where the tools are, how long they may take, and how many workers run them.
-/

namespace AddonIndex

/-- The settings, each with its default. -/
structure Settings where
  toolsDirectory : Option Path := none
  /-- The archive extractor, relative to the tools directory. -/
  extractor : Path := "BankRev/BankRev.exe"
  /-- The converter of binary configs, relative to the tools directory. -/
  converter : Path := "CfgConvert/CfgConvert.exe"
  extractTimeoutSeconds : Nat := 600
  convertTimeoutSeconds : Nat := 10
  workerThreads : Nat := 2
  logDirectory : Path := "logs"
  debugMode : Bool := false
deriving DecidableEq, Inhabited, Repr

namespace Settings

/-- How long an extraction may take. -/
def extractTimeout (settings : Settings) : Duration :=
  Duration.ofSeconds settings.extractTimeoutSeconds

/-- How long a conversion may take. -/
def convertTimeout (settings : Settings) : Duration :=
  Duration.ofSeconds settings.convertTimeoutSeconds

end Settings

end AddonIndex
