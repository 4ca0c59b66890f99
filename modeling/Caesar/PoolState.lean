import Caesar.Lib.OrdMap
import Caesar.Lib.Text
import Caesar.Payout

/-!
# The state file of the mining pool

`pool_save_state_unlocked` writes the counters, users, workers and payouts of
the pool as lines `key=value`, with the fields of a record between bars.
`pool_load_state_unlocked` reads the lines back; a line that it cannot read
changes nothing.
-/

namespace Caesar

open Codec Text

/-- `double`, as far as the state file is concerned. -/
structure Doubles where
  Val : Type
  print : Val → Bytes
  stod : Bytes → Option Val
  print_line : ∀ v, newline ∉ print v

structure PoolWorkerInfo where
  address : Bytes := []
  workerName : Bytes := []
  shares : UInt64 := 0
  sharesPending : UInt64 := 0
  lastSeen : UInt64 := 0
  deriving DecidableEq

structure PoolUserRecord where
  address : Bytes
  username : Bytes
  parent : Bytes
  children : List Bytes
  joinedAt : UInt64
  userNumber : UInt32
  isFounder : Bool
  deriving DecidableEq

/-- The globals that the file keeps. -/
structure PoolState (D : Doubles) where
  workers : OrdMap Bytes PoolWorkerInfo
  totalShares : UInt64
  totalBlocks : UInt64
  jobCounter : UInt64
  feePercent : D.Val
  payouts : List PoolPayoutRecord
  users : OrdMap Bytes PoolUserRecord
  nextUserNumber : UInt64
  totalRegistered : UInt64
  allUsers : OrdMap Bytes Unit
  firstSeenUnix : UInt64
  autoEnabled : Bool
  autoBlocks : UInt32
  lastPayoutHeight : UInt64

def PoolState.initial (D : Doubles) (feePercent : D.Val) : PoolState D where
  workers := .empty
  totalShares := 0
  totalBlocks := 0
  jobCounter := 0
  feePercent := feePercent
  payouts := []
  users := .empty
  nextUserNumber := 1
  totalRegistered := 0
  allUsers := .empty
  firstSeenUnix := 0
  autoEnabled := false
  autoBlocks := 10
  lastPayoutHeight := 0

/-! ## Keys -/

inductive StateKey where
  | totalShares
  | totalBlocks
  | jobCounter
  | feePercent
  | worker
  | payout
  | autoEnabled
  | autoBlocks
  | lastPayoutHeight
  | firstSeenUnix
  | user
  | userCounter
  | totalRegistered
  | reguser
  deriving DecidableEq

namespace StateKey

def name : StateKey → Bytes
  | totalShares => ascii "total_shares"
  | totalBlocks => ascii "total_blocks"
  | jobCounter => ascii "job_counter"
  | feePercent => ascii "fee_percent"
  | worker => ascii "worker"
  | payout => ascii "payout"
  | autoEnabled => ascii "auto_enabled"
  | autoBlocks => ascii "auto_blocks"
  | lastPayoutHeight => ascii "last_payout_height"
  | firstSeenUnix => ascii "first_seen_unix"
  | user => ascii "user"
  | userCounter => ascii "user_counter"
  | totalRegistered => ascii "total_registered"
  | reguser => ascii "reguser"

def all : List StateKey :=
  [totalShares, totalBlocks, jobCounter, feePercent, worker, payout, autoEnabled, autoBlocks, lastPayoutHeight,
    firstSeenUnix, user, userCounter, totalRegistered, reguser]

def ofName (name : Bytes) : Option StateKey := all.find? fun key => key.name = name

end StateKey

/-! ## Writing -/

def flag (b : Bool) : Bytes := if b then ascii "1" else ascii "0"

def bars (fields : List Bytes) : Bytes := [124].intercalate fields

def PoolUserRecord.text (u : PoolUserRecord) : Bytes :=
  bars [u.address, u.parent, decimal u.userNumber.toNat, decimal u.joinedAt.toNat, flag u.isFounder, u.username,
    [44].intercalate u.children]

def PoolWorkerInfo.text (w : PoolWorkerInfo) : Bytes :=
  bars [w.address, w.workerName, decimal w.shares.toNat, decimal w.sharesPending.toNat, decimal w.lastSeen.toNat]

def PoolPayoutRecord.text (r : PoolPayoutRecord) : Bytes :=
  bars [decimal r.timestamp.toNat, decimal r.blockHeight.toNat, r.txid, decimal r.totalAmount.toNat,
    decimal r.feeAmount.toNat, decimal r.recipientCount.toNat]

namespace PoolState

variable {D : Doubles}

def fields (st : PoolState D) : List (StateKey × Bytes) :=
  [(.totalShares, decimal st.totalShares.toNat), (.totalBlocks, decimal st.totalBlocks.toNat),
    (.jobCounter, decimal st.jobCounter.toNat), (.feePercent, D.print st.feePercent),
    (.autoEnabled, flag st.autoEnabled), (.autoBlocks, decimal st.autoBlocks.toNat),
    (.lastPayoutHeight, decimal st.lastPayoutHeight.toNat), (.firstSeenUnix, decimal st.firstSeenUnix.toNat)] ++
  st.allUsers.entries.map (fun kv => (.user, kv.1)) ++
  [(.userCounter, decimal st.nextUserNumber.toNat), (.totalRegistered, decimal st.totalRegistered.toNat)] ++
  st.users.entries.map (fun kv => (.reguser, kv.2.text)) ++
  st.workers.entries.map (fun kv => (.worker, kv.2.text)) ++
  st.payouts.map (fun r => (.payout, r.text))

/-- `pool_save_state_unlocked`. -/
def save (st : PoolState D) : Bytes := unlines (st.fields.map fun kv => kv.1.name ++ 61 :: kv.2)

end PoolState

/-! ## Reading -/

def readWorker (val : Bytes) : Option PoolWorkerInfo :=
  match val.splitOn 124 with
  | address :: workerName :: shares :: sharesPending :: lastSeen :: _ => do
    let shares ← stoull shares
    let sharesPending ← stoull sharesPending
    let lastSeen ← stoull lastSeen
    some ⟨address, workerName, shares, sharesPending, lastSeen⟩
  | _ => none

def readPayout (val : Bytes) : Option PoolPayoutRecord :=
  match val.splitOn 124 with
  | timestamp :: blockHeight :: txid :: totalAmount :: feeAmount :: recipientCount :: _ => do
    let timestamp ← stoull timestamp
    let blockHeight ← stoull blockHeight
    let totalAmount ← stoull totalAmount
    let feeAmount ← stoull feeAmount
    let recipientCount ← stoull recipientCount
    some ⟨timestamp, blockHeight, txid, totalAmount, feeAmount, recipientCount⟩
  | _ => none

/-- The children are read from the sixth field, which holds the user name; nothing reads the seventh. -/
def readUser (val : Bytes) : Option PoolUserRecord :=
  match val.splitOn 124 with
  | address :: parent :: userNumber :: joinedAt :: founder :: rest => do
    let userNumber ← stoull userNumber
    let joinedAt ← stoull joinedAt
    let sixth := rest.headD []
    some
      { address := address, parent := parent, userNumber := userNumber.toUInt32, joinedAt := joinedAt
        isFounder := founder = ascii "1", username := sixth
        children := if sixth ≠ [] then (sixth.splitOn 44).filter (· ≠ []) else [] }
  | _ => none

namespace PoolState

variable {D : Doubles}

/-- A line with a known key. When a number cannot be read the exception is caught, and nothing has changed. -/
def assign (key : StateKey) (val : Bytes) (st : PoolState D) : Option (PoolState D) :=
  match key with
  | .totalShares => (stoull val).map fun n => { st with totalShares := n }
  | .totalBlocks => (stoull val).map fun n => { st with totalBlocks := n }
  | .jobCounter => (stoull val).map fun n => { st with jobCounter := n }
  | .feePercent => (D.stod val).map fun x => { st with feePercent := x }
  | .worker => (readWorker val).map fun w => { st with workers := st.workers.insert w.address w }
  | .payout => (readPayout val).map fun r => { st with payouts := st.payouts ++ [r] }
  | .autoEnabled => some { st with autoEnabled := val = ascii "1" }
  | .autoBlocks => (stoull val).map fun n => { st with autoBlocks := n.toUInt32 }
  | .lastPayoutHeight => (stoull val).map fun n => { st with lastPayoutHeight := n }
  | .firstSeenUnix => (stoull val).map fun n => { st with firstSeenUnix := n }
  | .user => some { st with allUsers := st.allUsers.insert val () }
  | .userCounter => (stoull val).map fun n => { st with nextUserNumber := n }
  | .totalRegistered => (stoull val).map fun n => { st with totalRegistered := n }
  | .reguser => (readUser val).map fun u => { st with users := st.users.insert u.address u }

def put (st : PoolState D) (kv : StateKey × Bytes) : PoolState D := (st.assign kv.1 kv.2).getD st

def readLine (st : PoolState D) (line : Bytes) : PoolState D :=
  if line.isEmpty || line.head? = some 35 then st
  else match cut 61 line with
    | none => st
    | some (key, val) => match StateKey.ofName key with
      | none => st
      | some key => st.put (key, val)

def cleared (st : PoolState D) : PoolState D :=
  { st with
    workers := .empty, payouts := [], users := .empty, allUsers := .empty, nextUserNumber := 1, totalRegistered := 0 }

/-- `pool_load_state_unlocked`; without a file nothing changes. -/
def load (file : Option Bytes) (st : PoolState D) : PoolState D :=
  match file with
  | none => st
  | some text => (lines text).foldl readLine st.cleared

end PoolState

end Caesar
