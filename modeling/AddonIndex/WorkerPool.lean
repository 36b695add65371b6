import AddonIndex.FileTree.Error
import AddonIndex.Activity

/-!
# Worker pools

Buckets of work are done side by side, each by a worker of its own. Empty buckets
get no worker. An aborted worker leaves the rest of its bucket undone and is
named in the report; the others are not affected.
-/

namespace AddonIndex

/-- A pool with at least one worker. -/
structure WorkerPool where
  workers : Nat
  /-- What the name of each worker begins with. -/
  title : Text
deriving DecidableEq, Inhabited, Repr

/-- What came of the work. -/
structure PoolReport where
  /-- The number of workers that were started. -/
  started : Nat := 0
  /-- The names of the workers that were aborted, in the order of their buckets. -/
  aborted : List Text := []
deriving DecidableEq, Inhabited, Repr

/-- Whether no worker was aborted. -/
def PoolReport.isComplete (report : PoolReport) : Bool := report.aborted.isEmpty

/-- A worker that could not be started, and why. -/
structure WorkerRefused where
  worker : Text
  cause : FileError
deriving DecidableEq, Inhabited, Repr

/-- Why a worker of the given name cannot be started, if it cannot. -/
abbrev Refusals := Text → Option FileError

namespace WorkerPool

variable {α σ : Type}

/-- A pool; a size of zero counts as one. -/
def ofSize (workers : Nat) (title : Text) : WorkerPool := { workers := max workers 1, title }

/-- The name of the worker of a bucket; buckets are counted from one. -/
def workerName (pool : WorkerPool) (bucket : Nat) : Text :=
  pool.title ++ ' ' :: Text.ofNat bucket

/-- The buckets that are not empty, each with the name of its worker. The first
bucket of the list has the given number. -/
def assignments (pool : WorkerPool) : (bucket : Nat) → List (List α) → List (Text × List α)
  | _, [] => []
  | bucket, items :: rest =>
      if items.isEmpty then assignments pool (bucket + 1) rest
      else (pool.workerName bucket, items) :: assignments pool (bucket + 1) rest

/-- The workers that are started, up to the first one that is refused, and that
refusal if there is one. -/
def start (refusals : Refusals) :
    List (Text × List α) → List (Text × List α) × Option WorkerRefused
  | [] => ([], none)
  | (worker, items) :: rest =>
      match refusals worker with
      | some cause => ([], some { worker, cause })
      | none =>
          let (started, refused) := start refusals rest
          ((worker, items) :: started, refused)

/-- Do the work of all buckets. If a worker is refused, those started before it
finish their work all the same. -/
def run (pool : WorkerPool) (refusals : Refusals) (buckets : List (List α))
    (work : Text → List α → Activity σ Unit) : Activity σ (Except WorkerRefused PoolReport) := do
  let (started, refused) := start refusals (pool.assignments 1 buckets)
  let ended ← Activity.together (started.map fun (worker, items) => work worker items)
  match refused with
  | some refusal => return .error refusal
  | none =>
      return .ok
        { started := started.length
          aborted := (started.zip ended).filterMap fun (assignment, ended) =>
            if ended then none else some assignment.1 }

end WorkerPool

end AddonIndex
