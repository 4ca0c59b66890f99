import Caesar.Node

/-!
# The coins of the wallet

What `collect_my_utxos` of the RPC server computes: the outputs to an address
over all blocks and the pool, less every outpoint that some input names.
-/

namespace Caesar

open Codec

@[ext] structure WalletUtxo where
  txid : Hash256
  index : UInt32
  amount : UInt64
  deriving DecidableEq, Repr

def WalletUtxo.point (utxo : WalletUtxo) : OutPoint := ⟨utxo.txid, utxo.index⟩

abbrev FoundCoins := AList fun _ : OutPoint => WalletUtxo

/-- The order in which the map of found coins is walked. -/
structure CoinWalk where
  order : FoundCoins → List (Σ _ : OutPoint, WalletUtxo)
  perm : ∀ found, (order found).Perm found.entries

structure CoinScan where
  spent : Finset OutPoint
  unspent : FoundCoins

def CoinScan.empty : CoinScan := ⟨∅, ∅⟩

/-- The loop over the outputs in `process`. -/
def findOutputs (addr : Bytes) (txid : Hash256) : Nat → List TransactionOutput → FoundCoins → FoundCoins
  | _, [], unspent => unspent
  | i, output :: rest, unspent =>
    findOutputs addr txid (i + 1) rest
      (if output.recipient = addr then
        unspent.insert ⟨txid, UInt32.ofNat i⟩ ⟨txid, UInt32.ofNat i, output.amount⟩
      else unspent)

section
variable (K : Crypto)

def process (addr : Bytes) : List Transaction → CoinScan → Result CoinScan
  | [], scan => .ok scan
  | tx :: rest, scan => do
    let txid ← tx.txid K
    process addr rest ⟨scan.spent ∪ (tx.inputs.map TransactionInput.point).toFinset,
      findOutputs addr txid 0 tx.outputs scan.unspent⟩

/-- The loop over the blocks. -/
def processChain (addr : Bytes) : List Block → CoinScan → Result CoinScan
  | [], scan => .ok scan
  | block :: rest, scan => do
    let scan ← process K addr block.transactions scan
    processChain addr rest scan

def CoinScan.result (coins : CoinWalk) (scan : CoinScan) : List WalletUtxo :=
  (coins.order scan.unspent).filterMap fun entry => if entry.1 ∈ scan.spent then none else some entry.2

/-- `collect_my_utxos` with what `chain()` and `mempool_transactions()` return. -/
def collectMyUtxos (coins : CoinWalk) (addr : Bytes) (chain : List Block) (mempool : List Transaction) :
    Result (List WalletUtxo) :=
  if addr.isEmpty then .ok []
  else do
    let scan ← processChain K addr chain CoinScan.empty
    let scan ← process K addr mempool scan
    pure (scan.result coins)

end

/-- `collect_my_utxos` on a node; the pool comes in the order of its map. -/
def Node.collectMyUtxos {K : Crypto} (walk : Walk K) (coins : CoinWalk) (addr : Bytes) (node : Node K) :
    Result (List WalletUtxo) :=
  if addr.isEmpty then .ok []
  else do
    let chain ← node.storage.load K
    Caesar.collectMyUtxos K coins addr chain (walk.order node.mempool)

end Caesar
