import AddonIndex.Number.Binary64
import AddonIndex.Tool.Duration

/-!
# Counting the work

How many units of each kind of work were done and how many failed, and the time
spent in tools.
-/

namespace AddonIndex

/-- The counters of an indexer. -/
structure Tally where
  archivesExtracted : Nat := 0
  archivesFailed : Nat := 0
  configsConverted : Nat := 0
  configsFailed : Nat := 0
  configsParsed : Nat := 0
  parseFailures : Nat := 0
  filesCopied : Nat := 0
  copyFailures : Nat := 0
  /-- Addons that were read from the reference cache. -/
  cacheHits : Nat := 0
  addonsIndexed : Nat := 0
  addonsCancelled : Nat := 0
  /-- The time spent in tools, in milliseconds, modulo `2 ^ 64`. -/
  toolTime : Nat := 0
deriving DecidableEq, Inhabited, Repr

namespace Tally

/-- Count an extraction. -/
def countExtraction (tally : Tally) (success : Bool) : Tally :=
  if success then { tally with archivesExtracted := tally.archivesExtracted + 1 }
  else { tally with archivesFailed := tally.archivesFailed + 1 }

/-- Count a conversion. -/
def countConversion (tally : Tally) (success : Bool) : Tally :=
  if success then { tally with configsConverted := tally.configsConverted + 1 }
  else { tally with configsFailed := tally.configsFailed + 1 }

/-- Count a parsed config. -/
def countParse (tally : Tally) (success : Bool) : Tally :=
  if success then { tally with configsParsed := tally.configsParsed + 1 }
  else { tally with parseFailures := tally.parseFailures + 1 }

/-- Count a copied file. -/
def countCopy (tally : Tally) (success : Bool) : Tally :=
  if success then { tally with filesCopied := tally.filesCopied + 1 }
  else { tally with copyFailures := tally.copyFailures + 1 }

/-- Count an addon that was read from the reference cache. -/
def countCacheHit (tally : Tally) : Tally := { tally with cacheHits := tally.cacheHits + 1 }

/-- Count an addon that was indexed. -/
def countIndexed (tally : Tally) : Tally :=
  { tally with addonsIndexed := tally.addonsIndexed + 1 }

/-- Count an addon that was cancelled. -/
def countCancelled (tally : Tally) : Tally :=
  { tally with addonsCancelled := tally.addonsCancelled + 1 }

/-- Add time spent in a tool, in whole milliseconds. -/
def addToolTime (tally : Tally) (spent : Duration) : Tally :=
  { tally with toolTime := (tally.toolTime + spent.milliseconds) % Nat.pow 2 64 }

/-- How often a tool was run. -/
def toolInvocations (tally : Tally) : Nat :=
  tally.archivesExtracted + tally.archivesFailed + tally.configsConverted + tally.configsFailed

/-- The average time of running a tool, in milliseconds. -/
def averageToolTime (tally : Tally) : Binary64 :=
  if tally.toolInvocations = 0 then Binary64.zero
  else Binary64.ofRatio false (Binary64.ofNat tally.toolTime).toNat tally.toolInvocations

end Tally

end AddonIndex
