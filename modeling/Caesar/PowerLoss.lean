import Caesar.Lib.Durable
import Caesar.Append

/-!
# The storage file and a loss of power

The calls of `BlockchainStorage` on a page cache and a medium. `flush` leaves the
bytes in the cache, `fsync_file` brings those of the temporary file to the medium,
and `fsync_parent_dir` the new name, where the file system can do that: a
directory that cannot be opened, or for which `fsync` gives `EINVAL`, is left as
it is, and the call goes on.
-/

namespace Caesar

open Codec Script Durable

abbrev DurableDisk := Dir UInt8

namespace SaveOp

def cached (syncable : Bool) : SaveOp → DurableDisk → Option DurableDisk
  | openTemp, d => some d.create
  | write content _, d => some (d.write content)
  | refuse _, _ => none
  | flush, d => some d
  | openToSync, d => if d.temp.isSome then some d else none
  | fsyncTemp, d => some d.sync
  | rename, d => if d.temp.isSome then some d.rename else none
  | fsyncParentDir, d => some (if syncable then d.syncDir else d)

def spoilCached (done : Nat) : SaveOp → DurableDisk → DurableDisk
  | write content _, d => d.write (content.take done)
  | _, d => d

def cleanupCached : SaveOp → DurableDisk → DurableDisk
  | rename, d => d.remove
  | _, d => d

end SaveOp

def cachedOps (syncable : Bool) : Machine DurableDisk SaveOp :=
  ⟨SaveOp.cached syncable, SaveOp.spoilCached, SaveOp.error, SaveOp.cleanupCached⟩

namespace DurableDisk

variable (K : Crypto)

/-- An empty directory. -/
def blank : DurableDisk := ⟨none, none, []⟩

/-- What `load` reads. -/
def content (disk : DurableDisk) : Option Bytes := disk.main.map File.content

def save (syncable : Bool) (fault : Option Fault) (chain : List Block) (disk : DurableDisk) : Option Halt × DurableDisk :=
  if chain.isEmpty then (some (.threw "cannot save empty blockchain"), disk)
  else match validateCandidateChain K chain with
    | .error e => (some (.threw e.what), disk)
    | .ok false => (some (.threw "refusing to save invalid blockchain"), disk)
    | .ok true => perform (cachedOps syncable) fault (writeTempOps K chain ++ [.rename, .fsyncParentDir]) disk

/-- The chain that `append` hands to `save`. -/
def appended (block : Block) (disk : DurableDisk) : Result (List Block) := do
  let chain ← if disk.content.isSome then StorageFile.load K disk.content else pure []
  appendChecks K chain block
  pure (chain ++ [block])

def append (syncable : Bool) (fault : Option Fault) (block : Block) (disk : DurableDisk) : Option Halt × DurableDisk :=
  match appended K block disk with
  | .error e => (some (.threw e.what), disk)
  | .ok chain => save K syncable fault chain disk

end DurableDisk

/-- A call, with what becomes of it, or a loss of power between the calls. A loss of power during a call is one after a
call that was stopped. -/
inductive StorageEvent where
  | save (syncable : Bool) (fault : Option Fault) (chain : List Block)
  | append (syncable : Bool) (fault : Option Fault) (block : Block)
  | powerLoss (loss : Loss UInt8)

namespace DurableDisk

variable (K : Crypto)

def step (disk : DurableDisk) : StorageEvent → DurableDisk
  | .save syncable fault chain => (save K syncable fault chain disk).2
  | .append syncable fault block => (append K syncable fault block disk).2
  | .powerLoss loss => disk.lose loss

def run (disk : DurableDisk) (events : List StorageEvent) : DurableDisk := events.foldl (step K) disk

/-! ## What has been put in place -/

/-- Whether the call of `save` comes past its rename. -/
def renames (syncable : Bool) (fault : Option Fault) (chain : List Block) (disk : DurableDisk) : Bool :=
  validateCandidateChain K chain = .ok true ∧
    (perform (cachedOps syncable) fault (writeTempOps K chain ++ [.rename]) disk).1 = none

def puts (disk : DurableDisk) : StorageEvent → List (List Block)
  | .save syncable fault chain => if renames K syncable fault chain disk then [chain] else []
  | .append syncable fault block =>
    match appended K block disk with
    | .error _ => []
    | .ok chain => if renames K syncable fault chain disk then [chain] else []
  | .powerLoss _ => []

/-- The chains put in place in the run, in their order. -/
def history : List StorageEvent → DurableDisk → List (List Block)
  | [], _ => []
  | event :: rest, disk => puts K disk event ++ history rest (step K disk event)

end DurableDisk

end Caesar
