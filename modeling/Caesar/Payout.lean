import Caesar.Announce
import Caesar.Wallet

/-!
# The payout of the mining pool

`pool_execute_payout` takes a snapshot of the pending shares, builds and signs a
transaction that divides the balance of the wallet among them, submits it, and
takes the shares of the snapshot off the workers. Between the snapshot and the
deduction the lock on the workers is released.
-/

namespace Caesar

open Codec

/-! ## Workers -/

/-- `g_pool_workers`: the pending shares by address, in the order of `std::map`. -/
structure PoolWorkers where
  entries : List (Bytes × UInt64)
  sorted : entries.Pairwise fun a b => a.1 ≠ b.1 ∧ lexLe a.1 b.1 = true
  deriving DecidableEq

namespace PoolWorkers

/-- The workers with pending shares. -/
def snapshot (workers : PoolWorkers) : List (Bytes × UInt64) := workers.entries.filter fun kv => kv.2 > 0

/-- One round of the loop that takes the shares of the snapshot off; a worker with fewer keeps them. -/
def deduct (item : Bytes × UInt64) (workers : PoolWorkers) : PoolWorkers where
  entries := workers.entries.map fun kv => (kv.1, if kv.1 = item.1 ∧ kv.2 ≥ item.2 then kv.2 - item.2 else kv.2)
  sorted := List.pairwise_map.mpr workers.sorted

def deductAll (snap : List (Bytes × UInt64)) (workers : PoolWorkers) : PoolWorkers :=
  snap.foldl (fun workers item => workers.deduct item) workers

end PoolWorkers

def totalPending (snap : List (Bytes × UInt64)) : UInt64 := snap.foldl (fun total kv => total + kv.2) 0

/-! ## The transaction -/

/-- The wallet of the server; its key may be missing, and signing may fail. -/
structure PoolWallet where
  publicKey : Result Bytes
  signMessage : Bytes → Result Bytes

/-- What the loop over the snapshot has assigned. -/
structure Assignment where
  outputs : List TransactionOutput
  assigned : UInt64
  recipients : Nat

def payoutAmount (workerPool total shares : UInt64) : UInt64 := workerPool * shares / total

def assignOutputs (workerPool total : UInt64) : List (Bytes × UInt64) → Assignment → Assignment
  | [], st => st
  | (addr, shares) :: rest, st =>
    let amount := payoutAmount workerPool total shares
    if amount = 0 then assignOutputs workerPool total rest st
    else assignOutputs workerPool total rest ⟨st.outputs ++ [⟨amount, addr⟩], st.assigned + amount, st.recipients + 1⟩

/-- The inputs gathered until `target` is reached, and what they are worth. -/
def gatherInputs (target : UInt64) : List WalletUtxo → List TransactionInput → UInt64 → List TransactionInput × UInt64
  | [], inputs, gathered => (inputs, gathered)
  | utxo :: rest, inputs, gathered =>
    let inputs := inputs ++ [⟨utxo.txid, utxo.index⟩]
    let gathered := gathered + utxo.amount
    if gathered ≥ target then (inputs, gathered) else gatherInputs target rest inputs gathered

def signTransactionInput (wallet : PoolWallet) (tx : Transaction) (i : Nat) : Result Bytes := do
  let message ← transactionSigningMessage tx i
  wallet.signMessage message

def signInputs (wallet : PoolWallet) (publicKey : Bytes) : List Nat → Transaction → Result Transaction
  | [], tx => .ok tx
  | i :: rest, tx => do
    let signature ← signTransactionInput wallet tx i
    signInputs wallet publicKey rest { tx with witness := tx.witness ++ [⟨publicKey, signature⟩] }

/-- The transaction with the values that the record and the result take from building it. -/
structure PayoutPlan where
  tx : Transaction
  workerPool : UInt64
  fee : UInt64
  assigned : UInt64
  recipients : Nat

/-- From the unspent outputs to the signed transaction. -/
def buildPayout (wallet : PoolWallet) (poolAddr : Bytes) (feeAmount : UInt64 → UInt64)
    (snap : List (Bytes × UInt64)) (utxos : List WalletUtxo) : Result PayoutPlan :=
  let totalUtxo := utxos.foldl (fun total utxo => total + utxo.amount) 0
  if totalUtxo < 10000 then fail "pool balance too small"
  else
    let distributable := totalUtxo - 1000
    let fee := feeAmount distributable
    let workerPool := distributable - fee
    let st := assignOutputs workerPool (totalPending snap) snap ⟨[], 0, 0⟩
    if st.outputs.isEmpty then fail "no outputs above dust"
    else
      let (inputs, gathered) := gatherInputs (st.assigned + 5000) utxos [] 0
      if gathered < st.assigned then fail "insufficient utxos"
      else
        let change := if gathered > st.assigned then [⟨gathered - st.assigned, poolAddr⟩] else []
        do
          let publicKey ← wallet.publicKey
          let tx ← signInputs wallet publicKey (List.range inputs.length) ⟨1, [], inputs, st.outputs ++ change, []⟩
          pure ⟨tx, workerPool, fee, st.assigned, st.recipients⟩

/-! ## The call -/

structure PoolPayoutRecord where
  timestamp : UInt64
  blockHeight : UInt64
  txid : Bytes
  totalAmount : UInt64
  feeAmount : UInt64
  recipientCount : UInt64
  deriving DecidableEq

structure PoolPayoutResult where
  ok : Bool := false
  error : String := ""
  txid : Bytes := []
  distributed : UInt64 := 0
  fee : UInt64 := 0
  recipients : Nat := 0

def Node.height {K : Crypto} (node : Node K) : Result UInt64 := do
  let chain ← node.storage.load K
  pure (match chain.getLast? with
    | none => 0
    | some block => block.header.height)

/-- What a call reads. The fee is computed in floating point, so it is any function of the balance; `later` are the
workers when the lock is taken again. -/
structure PayoutCall (K : Crypto) where
  node : Node K
  connections : List Connection
  walk : Walk K
  coins : CoinWalk
  wallet : Option PoolWallet
  feeAmount : UInt64 → UInt64
  time : UInt64
  workers : PoolWorkers
  later : PoolWorkers
  payouts : List PoolPayoutRecord

structure PayoutOutcome (K : Crypto) where
  result : PoolPayoutResult
  workers : PoolWorkers
  payouts : List PoolPayoutRecord
  node : Node K

namespace PayoutCall

variable {K : Crypto} (call : PayoutCall K)

/-- The call up to the submission; every early return and every exception puts its text into the result. -/
def plan : Result PayoutPlan :=
  if totalPending call.workers.snapshot = 0 then fail "no pending shares"
  else match call.wallet with
    | none => fail "wallet unavailable"
    | some wallet => do
      let publicKey ← wallet.publicKey
      let poolAddr := addressFromPublicKey K publicKey
      if poolAddr.isEmpty then fail "pool address unavailable"
      else do
        let utxos ← call.node.collectMyUtxos call.walk call.coins poolAddr
        buildPayout wallet poolAddr call.feeAmount call.workers.snapshot utxos

/-- A call that ends with a text and leaves the pool as it is. -/
def refused (error : String) (node : Node K) : PayoutOutcome K :=
  ⟨{ error := error }, call.later, call.payouts, node⟩

/-- What the result and the record take from the node after the submission. -/
def receipt (plan : PayoutPlan) (node : Node K) : Result (Bytes × UInt64) := do
  let txid ← plan.tx.txid K
  let height ← node.height
  pure (hashToHex txid, height)

def poolExecutePayout : PayoutOutcome K :=
  match call.plan with
  | .error e => call.refused e.what call.node
  | .ok plan =>
    match call.node.submitTransaction call.connections plan.tx with
    | (.error e, node) => call.refused e.what node
    | (.ok false, node) => call.refused "mempool rejected" node
    | (.ok true, node) =>
      match receipt plan node with
      | .error e => call.refused e.what node
      | .ok (txid, height) =>
        { result :=
            { ok := true, txid := txid, distributed := plan.assigned, fee := plan.fee, recipients := plan.recipients }
          workers := call.later.deductAll call.workers.snapshot
          payouts := call.payouts ++ [⟨call.time, height, txid, plan.assigned, plan.fee, .ofNat plan.recipients⟩]
          node := node }

end PayoutCall

end Caesar
