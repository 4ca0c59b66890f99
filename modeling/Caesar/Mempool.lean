import Caesar.Chain
import Mathlib.Data.List.AList
import Mathlib.Data.List.Sort

/-!
# The mempool and the block builder

The pool is a map from txids to transactions. C++ leaves the order in which such
a map is walked open: `orderedTransactions` sorts, and the order that
`revalidateMempoolAfterReorg` meets is a `Walk`.
-/

namespace Caesar

open Codec

inductive MempoolRejectReason where
  | none
  | invalidTransaction
  | duplicate
  | missingInput
  | duplicateInput
  | doubleSpend
  | outputOverflow
  | insufficientInputValue
  | transactionTooLarge
  | mempoolFull
  deriving DecidableEq, Repr

/-! ## Admission by value -/

/-- The input loop of `validate_for_mempool`. -/
def mempoolInputs (utxos : UTXOSet) :
    Finset OutPoint → UInt64 → List TransactionInput → Except MempoolRejectReason UInt64
  | _, sum, [] => .ok sum
  | seen, sum, input :: rest =>
    if input.point ∈ seen then .error .duplicateInput
    else if !utxos.contains input.point then .error .missingInput
    else match utxos.get input.point with
      | none => .error .missingInput
      | some previous =>
        if previous.amount > uint64Max - sum then .error .outputOverflow
        else mempoolInputs utxos (insert input.point seen) (sum + previous.amount) rest

/-- The output loop of `validate_for_mempool`. -/
def mempoolOutputs : UInt64 → List TransactionOutput → Except MempoolRejectReason UInt64
  | sum, [] => .ok sum
  | sum, output :: rest =>
    if output.amount = 0 ∨ output.recipient = [] then .error .invalidTransaction
    else if output.amount > uint64Max - sum then .error .outputOverflow
    else mempoolOutputs (sum + output.amount) rest

def validateForMempool (tx : Transaction) (utxos : UTXOSet) : MempoolRejectReason :=
  if !tx.validate then .invalidTransaction
  else match mempoolInputs utxos ∅ 0 tx.inputs with
    | .error reason => reason
    | .ok inputSum =>
      match mempoolOutputs 0 tx.outputs with
      | .error reason => reason
      | .ok outputSum => if inputSum < outputSum then .insufficientInputValue else .none

/-! ## The pool -/

/-- Every key is the txid of its transaction, which can be serialized. -/
structure Mempool (K : Crypto) where
  transactions : AList fun _ : Hash256 => Transaction
  reservedInputs : Finset OutPoint
  mempoolBytes : Nat
  keyed : ∀ id tx, transactions.lookup id = some tx → tx.txid K = .ok id ∧ ∃ data, tx.serializeFullBinary = .ok data

def maxTransactions : Nat := 5000

def maxTransactionBytes : Nat := 1000000

def maxMempoolBytes : Nat := 16 * 1024 * 1024

/-- `std::array` compares bytes from the front. -/
def lexLe : Bytes → Bytes → Bool
  | [], _ => true
  | _ :: _, [] => false
  | a :: as, b :: bs => if a < b then true else if b < a then false else lexLe as bs

def spendAndAdd (K : Crypto) (tx : Transaction) (utxos : UTXOSet) : Result (Option UTXOSet) :=
  match spendInputs tx.inputs utxos with
  | none => .ok none
  | some spent => do
    let txid ← tx.txid K
    pure (addOutputs txid 0 tx.outputs spent)

structure OrderState where
  working : UTXOSet
  ordered : List Transaction
  remaining : Finset Hash256

/-- One pass over the sorted entries; `none` is `return {}`, and the flag tells whether something was taken. -/
def orderPass (K : Crypto) : List (Hash256 × Transaction) → OrderState → Bool → Result (Option (OrderState × Bool))
  | [], st, progressed => .ok (some (st, progressed))
  | (id, tx) :: rest, st, progressed =>
    if id ∉ st.remaining then orderPass K rest st progressed
    else if !tx.inputs.all fun input => st.working.contains input.point then orderPass K rest st progressed
    else ifSome (spendAndAdd K tx st.working) fun working =>
      orderPass K rest ⟨working, st.ordered ++ [tx], st.remaining.erase id⟩ true

/-- The passes; each but the last takes a transaction, so their number is bounded by the entries. -/
def orderLoop (K : Crypto) (pending : List (Hash256 × Transaction)) : Nat → OrderState → Result (List Transaction)
  | 0, st => .ok (if st.remaining = ∅ then st.ordered else [])
  | passes + 1, st =>
    if st.remaining = ∅ then .ok st.ordered
    else do
      match ← orderPass K pending st false with
      | none => pure []
      | some (st, progressed) => if !progressed then pure [] else orderLoop K pending passes st

/-- The loop of `build_effective_utxo`. -/
def applyOrdered (K : Crypto) : List Transaction → UTXOSet → Result (Option UTXOSet)
  | [], utxos => .ok (some utxos)
  | tx :: rest, utxos => ifSome (spendAndAdd K tx utxos) fun utxos => applyOrdered K rest utxos

namespace Mempool

variable {K : Crypto}

def empty (K : Crypto) : Mempool K := ⟨∅, ∅, 0, by simp⟩

def contains (pool : Mempool K) (txid : Hash256) : Bool := txid ∈ pool.transactions

def size (pool : Mempool K) : Nat := pool.transactions.entries.length

def inputReserved (pool : Mempool K) (point : OutPoint) : Bool := point ∈ pool.reservedInputs

def snapshot (pool : Mempool K) : List Transaction := pool.transactions.entries.map fun entry => entry.2

def pending (pool : Mempool K) : List (Hash256 × Transaction) :=
  (pool.transactions.entries.map fun entry => (entry.1, entry.2)).insertionSort fun a b => lexLe a.1.1 b.1.1

def orderedTransactions (pool : Mempool K) (chainUtxos : UTXOSet) : Result (List Transaction) :=
  orderLoop K pool.pending pool.pending.length
    ⟨chainUtxos, [], (pool.pending.map Prod.fst).toFinset⟩

def buildEffectiveUtxo (pool : Mempool K) (chainUtxos : UTXOSet) : Result (Option UTXOSet) := do
  let ordered ← pool.orderedTransactions chainUtxos
  if ordered.length ≠ pool.size then pure none else applyOrdered K ordered chainUtxos

def insert (pool : Mempool K) (id : Hash256) (tx : Transaction) (data : Bytes) (hid : tx.txid K = .ok id)
    (hdata : tx.serializeFullBinary = .ok data) : Mempool K where
  transactions := pool.transactions.insert id tx
  reservedInputs := pool.reservedInputs ∪ tx.points.toFinset
  mempoolBytes := pool.mempoolBytes + data.length
  keyed := by
    intro id' tx' h
    by_cases he : id' = id
    · subst he
      rw [AList.lookup_insert, Option.some.injEq] at h
      exact h ▸ ⟨hid, data, hdata⟩
    · rw [AList.lookup_insert_ne he] at h
      exact pool.keyed id' tx' h

/-- What `accept` checks after the size limits. -/
def validateAdmission (pool : Mempool K) (tx : Transaction) (chainUtxos : UTXOSet) : Result MempoolRejectReason :=
  if tx.inputs.any fun input => pool.inputReserved input.point then .ok .doubleSpend
  else do
    match ← pool.buildEffectiveUtxo chainUtxos with
    | none => pure .invalidTransaction
    | some effectiveUtxos =>
      let reason := validateForMempool tx effectiveUtxos
      if reason ≠ .none then pure reason
      else do
        let valid ← validateTransactionWitness K tx effectiveUtxos
        pure (if !valid then .invalidTransaction else .none)

/-- The reason, and the pool after the call. -/
def accept (pool : Mempool K) (tx : Transaction) (chainUtxos : UTXOSet) : Result (MempoolRejectReason × Mempool K) :=
  match hid : tx.txid K with
  | .error e => .error e
  | .ok id =>
    if pool.contains id then .ok (.duplicate, pool)
    else if pool.size ≥ maxTransactions then .ok (.mempoolFull, pool)
    else match hdata : tx.serializeFullBinary with
      | .error e => .error e
      | .ok data =>
        if data.length > maxTransactionBytes then .ok (.transactionTooLarge, pool)
        else if pool.mempoolBytes > maxMempoolBytes - data.length then .ok (.mempoolFull, pool)
        else do
          let reason ← pool.validateAdmission tx chainUtxos
          pure (reason, if reason = .none then pool.insert id tx data hid hdata else pool)

end Mempool

/-- An order in which the map of the pool may be walked. -/
structure Walk (K : Crypto) where
  order : Mempool K → List Transaction
  perm : ∀ pool, (order pool).Perm pool.snapshot

/-! ## After a reorganisation -/

section
variable (K : Crypto)

/-- One pass over the snapshot: what is still pending, whether something was decided, and the pool. -/
def revalidatePass (utxos : UTXOSet) : List Transaction → Mempool K → Finset Hash256 → Bool →
    Result (Finset Hash256 × Bool) × Mempool K
  | [], pool, pending, progress => (.ok (pending, progress), pool)
  | tx :: rest, pool, pending, progress =>
    match tx.txid K with
    | .error e => (.error e, pool)
    | .ok id =>
      if id ∉ pending then revalidatePass utxos rest pool pending progress
      else if tx.inputs.any fun input => input.previousTxid ∈ pending then
        revalidatePass utxos rest pool pending progress
      else match pool.accept tx utxos with
        | .error e => (.error e, pool)
        | .ok (_, pool) => revalidatePass utxos rest pool (pending.erase id) true

def revalidateLoop (utxos : UTXOSet) (snapshot : List Transaction) : Nat → Mempool K → Finset Hash256 →
    Result Unit × Mempool K
  | 0, pool, _ => (.ok (), pool)
  | passes + 1, pool, pending =>
    if pending = ∅ then (.ok (), pool)
    else match revalidatePass K utxos snapshot pool pending false with
      | (.error e, pool) => (.error e, pool)
      | (.ok (pending, progress), pool) =>
        if !progress then (.ok (), pool) else revalidateLoop utxos snapshot passes pool pending

def revalidateMempoolAfterReorg (walk : Walk K) (mempool : Mempool K) (newChain : List Block) :
    Result Unit × Mempool K :=
  let snapshot := walk.order mempool
  if mempool.size = 0 then (.ok (), mempool)
  else if snapshot.isEmpty then (.ok (), Mempool.empty K)
  else match rebuildUtxoSet K newChain with
    | .error _ => (.ok (), Mempool.empty K)
    | .ok newUtxos =>
      match snapshot.mapM (Transaction.txid K) with
      | .error e => (.error e, Mempool.empty K)
      | .ok ids => revalidateLoop K newUtxos snapshot snapshot.length (Mempool.empty K) ids.toFinset

/-! ## Building and mining a block -/

/-- `BlockBuilder::build` with the UTXO set of the chain, as the node calls it. -/
def buildBlock (previous : Block) (mempool : Mempool K) (minerRecipient : Bytes) (timestamp : UInt64)
    (difficulty : UInt32) (nonce : UInt64) (chainUtxos : UTXOSet) : Result Block :=
  if minerRecipient.isEmpty then fail "miner recipient is empty"
  else do
    let height := previous.header.height + 1
    let coinbase ← makeCoinbaseTransaction height minerRecipient height
    let ordered ← mempool.orderedTransactions chainUtxos
    Block.updateMerkleRoot K
      { header :=
          { version := 1, height := height, previousHash := previous.hash K, merkleRoot := Hash256.zero,
            witnessRoot := Hash256.zero, timestamp := timestamp, nonce := nonce, difficulty := difficulty }
        transactions := coinbase :: ordered }

/-- `BlockBuilder::build` without a UTXO set: the pool in the order of its map. -/
def buildBlockUnordered (walk : Walk K) (previous : Block) (mempool : Mempool K) (minerRecipient : Bytes)
    (timestamp : UInt64) (difficulty : UInt32) (nonce : UInt64) : Result Block :=
  if minerRecipient.isEmpty then fail "miner recipient is empty"
  else do
    let height := previous.header.height + 1
    let coinbase ← makeCoinbaseTransaction height minerRecipient height
    Block.updateMerkleRoot K
      { header :=
          { version := 1, height := height, previousHash := previous.hash K, merkleRoot := Hash256.zero,
            witnessRoot := Hash256.zero, timestamp := timestamp, nonce := nonce, difficulty := difficulty }
        transactions := coinbase :: walk.order mempool }

/-- `BlockBuilder::mine`; `none` is `false`. -/
def mineBlock (block : Block) (startNonce maxAttempts : UInt64) : Result (Option Block) :=
  if block.header.difficulty > 256 then .ok none
  else match minePow K block.powHeader block.header.difficulty startNonce maxAttempts with
    | none => .ok none
    | some (nonce, hash) =>
      let mined : Block := { block with header := { block.header with nonce := nonce } }
      if mined.powHash K ≠ hash then fail "PoW hash changed immediately after mining"
      else .ok (if mined.validatePow K then some mined else none)

end

end Caesar
