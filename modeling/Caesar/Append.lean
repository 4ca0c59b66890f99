import Caesar.Lib.Script
import Caesar.Storage

/-!
# Appending to the storage file

`append` reads the canonical file, checks the block and writes the longer chain
to a temporary file, which it then renames. `save` is a script of file operations
here, so that any of them can fail; a block that cannot be written fails by
itself. The system's part of a message, and the path, are left out of it.
-/

namespace Caesar

open Codec Script

/-- `path_` and `path_ + ".tmp"`. -/
structure StorageDisk where
  canonical : Option Bytes
  temp : Option Bytes
  deriving DecidableEq

inductive SaveOp where
  | openTemp
  | write (content : Bytes) (what : String)
  | refuse (what : String)
  | flush
  | openToSync
  | fsyncTemp
  | rename
  | fsyncParentDir
  deriving DecidableEq

namespace SaveOp

def act : SaveOp → StorageDisk → Option StorageDisk
  | openTemp, d => some { d with temp := some [] }
  | write content _, d => some { d with temp := d.temp.map (· ++ content) }
  | refuse _, _ => none
  | flush, d => some d
  | openToSync, d => if d.temp.isSome then some d else none
  | fsyncTemp, d => some d
  | rename, d => if d.temp.isSome then some ⟨d.temp, none⟩ else none
  | fsyncParentDir, d => some d

def spoil (done : Nat) : SaveOp → StorageDisk → StorageDisk
  | write content _, d => { d with temp := d.temp.map (· ++ content.take done) }
  | _, d => d

def error : SaveOp → Option String
  | openTemp => some "failed to create blockchain storage"
  | write _ what => some what
  | refuse what => some what
  | flush => some "failed while writing blockchain storage"
  | openToSync => some "fsync open failed for "
  | fsyncTemp => some "fsync failed for "
  | rename => some "failed to atomically replace blockchain storage: "
  -- a directory that cannot be opened, or that cannot be synced at all, counts as a success
  | fsyncParentDir => some "fsync dir failed for "

def cleanup : SaveOp → StorageDisk → StorageDisk
  | rename, d => { d with temp := none }
  | _, d => d

end SaveOp

def storageOps : Machine StorageDisk SaveOp := ⟨SaveOp.act, SaveOp.spoil, SaveOp.error, SaveOp.cleanup⟩

section
variable (K : Crypto)

def writeBlockOps (block : Block) : List SaveOp :=
  match writeBlock block with
  | .ok data => [.write (writeSize data.length) "failed writing uint32",
      .write (data ++ (K.sha256 data).1) "failed writing blockchain block"]
  | .error e => [.refuse e.what]

/-- What `save` does before the rename. -/
def writeTempOps (chain : List Block) : List SaveOp :=
  [.openTemp, .write (writeU32 storageMagic) "failed writing uint32",
    .write (writeU32 storageFormatVersion) "failed writing uint32",
    .write (writeU64 (UInt64.ofNat chain.length)) "failed writing uint64"] ++
  (chain.flatMap (writeBlockOps K) ++ [.flush, .openToSync, .fsyncTemp])

def StorageDisk.save (fault : Option Fault) (chain : List Block) (disk : StorageDisk) : Option Halt × StorageDisk :=
  if chain.isEmpty then (some (.threw "cannot save empty blockchain"), disk)
  else match validateCandidateChain K chain with
    | .error e => (some (.threw e.what), disk)
    | .ok false => (some (.threw "refusing to save invalid blockchain"), disk)
    | .ok true => perform storageOps fault (writeTempOps K chain ++ [.rename, .fsyncParentDir]) disk

/-- The checks of `append` between loading and saving: short chains have their own. -/
def appendChecks (chain : List Block) (block : Block) : Result Unit :=
  match chain.getLast? with
  | none => do
    let basic ← block.validateBasic K
    if !basic then fail "cannot store invalid first block" else pure ()
  | some previous =>
    if block.header.height ≠ previous.header.height + 1 then fail "block height does not extend stored blockchain"
    else if block.header.previousHash ≠ previous.hash K then fail "block previous hash does not match stored tip"
    else if block.header.timestamp < previous.header.timestamp then fail "block timestamp is before stored tip"
    else if chain.length < czrDifficultyWindow + 1 then
      if block.header.difficulty ≠ expectedNextDifficulty chain then
        fail "block difficulty does not match bootstrap rule"
      else do
        let basic ← block.validateBasic K
        if !basic then (BlockchainStorage.basicFailure K block).map fun _ => () else pure ()
    else do
      let previousUtxos ← rebuildUtxoSet K chain
      let valid ← validateBlockConsensus K block chain previousUtxos
      if !valid then fail "block consensus validation failed" else pure ()

def StorageDisk.append (fault : Option Fault) (block : Block) (disk : StorageDisk) : Option Halt × StorageDisk :=
  let checked : Result (List Block) := do
    let chain ← if disk.canonical.isSome then StorageFile.load K disk.canonical else pure []
    appendChecks K chain block
    pure (chain ++ [block])
  match checked with
  | .error e => (some (.threw e.what), disk)
  | .ok chain => disk.save K fault chain

end

end Caesar
