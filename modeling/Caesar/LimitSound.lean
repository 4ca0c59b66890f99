import Caesar.AnnounceSound
import Caesar.MiningSound
import Caesar.ReorgSound

/-!
# The limits from the pool to the wire

A built block carries the whole pool, so its size is that of the pool with a
fixed overhead and four bytes for each transaction. The pool may be as large as
a stored block and four times as large as a frame.
-/

namespace Caesar

open Codec

section
variable {K : Crypto}

/-! ## What the pool may hold -/

/-- The pools that calls of `accept` lead to, with any UTXO sets. -/
inductive Mempool.Admitted : Mempool K → Prop
  | empty : Admitted (Mempool.empty K)
  | accept {pool after tx utxos reason} : Admitted pool → pool.accept tx utxos = .ok (reason, after) → Admitted after

def weight (txs : List Transaction) : Nat := (txs.map fun tx => tx.fullBytes.length).sum

structure Mempool.Bounded (pool : Mempool K) : Prop where
  bytes : pool.mempoolBytes = weight pool.snapshot
  each : ∀ tx ∈ pool.snapshot, tx.fullBytes.length ≤ maxTransactionBytes
  count : pool.snapshot.length ≤ maxTransactions
  room : pool.mempoolBytes ≤ maxMempoolBytes

theorem Mempool.Bounded.accept {pool after : Mempool K} (h : pool.Bounded) {tx : Transaction} {u : UTXOSet}
    {reason : MempoolRejectReason} (hacc : pool.accept tx u = .ok (reason, after)) : after.Bounded := by
  rcases accept_ok hacc with ⟨-, rfl⟩ | ⟨rfl, hsnap, -⟩
  · exact h
  · obtain ⟨hsize, hroom, hcount, hbytes⟩ := accept_limits hacc
    refine ⟨?_, ?_, ?_, ?_⟩
    · rw [hbytes, hsnap, h.bytes, weight, weight, List.map_cons, List.sum_cons, Nat.add_comm]
    · rw [hsnap, List.forall_mem_cons]
      exact ⟨hsize, h.each⟩
    · rw [size_eq] at hcount
      rw [hsnap, List.length_cons]
      exact hcount
    · rwa [hbytes]

theorem Mempool.Admitted.acceptTransaction {node : Node K} (h : node.mempool.Admitted) (tx : Transaction) :
    (node.acceptTransaction tx).2.mempool.Admitted := by
  cases hresult : (node.acceptTransaction tx).1 with
  | error e => rwa [acceptTransaction_throws hresult]
  | ok reason =>
    have hcall : node.acceptTransaction tx = (.ok reason, (node.acceptTransaction tx).2) := Prod.ext hresult rfl
    obtain ⟨chain, u, t, -, -, ⟨-, hafter⟩ | ⟨-, pool, hacc, hafter⟩⟩ := acceptTransaction_ok hcall
    · rwa [hafter]
    · rw [hafter]
      exact h.accept hacc

theorem Mempool.Admitted.bounded {pool : Mempool K} (h : pool.Admitted) : pool.Bounded := by
  induction h with
  | empty => exact ⟨rfl, by simp [empty_snapshot], by simp [empty_snapshot], by simp [Mempool.empty]⟩
  | accept _ hacc ih => exact ih.accept hacc

/-! ## Sizes -/

theorem blockBytes_length (block : Block) :
    block.bytes.length = 132 + (weight block.transactions + 4 * block.transactions.length) := by
  have hsum : ∀ txs : List Transaction, (txs.flatMap fun tx => stringBytes tx.fullBytes).length =
      weight txs + 4 * txs.length := by
    intro txs
    induction txs with
    | nil => rfl
    | cons tx txs ih =>
      rw [List.flatMap_cons, List.length_append, ih]
      simp [weight, stringBytes]
      omega
  rw [Block.bytes, List.length_append, headerBytes_length, List.length_append, hsum]
  simp
  omega

theorem blockFrame_length (block : Block) : (blockFrame block).payload.length = 8 + block.bytes.length := by
  simp [blockFrame, writeSized]
  omega

theorem address_length (publicKey : Bytes) : (addressFromPublicKey K publicKey).length = 75 := by
  have hhash : ∀ hash : Hash256, (hashToHex hash).length = 64 := by
    intro hash
    rw [hashToHex, bytesToHex_length, hash.2]
  simp [addressFromPublicKey, addressChecksum, hhash, asciiBytes]

theorem coinbase_size {height extraNonce : UInt64} {recipient : Bytes} {coinbase : Transaction}
    (hlen : recipient.length ≤ uint32Max) (h : makeCoinbaseTransaction height recipient extraNonce = .ok coinbase) :
    coinbase.fullBytes.length = 76 + recipient.length ∧ coinbase.Fits uint32Max := by
  unfold makeCoinbaseTransaction at h
  obtain ⟨-, h⟩ := ite_error_ok.mp h
  obtain ⟨-, h⟩ := ite_error_ok.mp h
  cases h
  constructor
  · simp [Transaction.fullBytes, Transaction.bytes, stringBytes, TransactionInput.serializeBinary, TransactionOutput.bytes,
      Hash256.zero]
    omega
  · refine ⟨⟨?_, ?_, ?_, ?_⟩, ?_, ?_, ?_⟩
    · simp
    · simp [uint32Max]
    · simp [uint32Max]
    · simpa using hlen
    · simp
    · simp
    · simp

theorem address_le (publicKey : Bytes) : (addressFromPublicKey K publicKey).length ≤ uint32Max := by
  rw [address_length]
  decide

/-! ## The built block -/

theorem buildBlock_transactions {previous block : Block} {pool : Mempool K} {recipient : Bytes} {timestamp nonce : UInt64}
    {difficulty : UInt32} {u : UTXOSet}
    (h : buildBlock K previous pool recipient timestamp difficulty nonce u = .ok block) : ∃ height coinbase ordered,
      makeCoinbaseTransaction height recipient height = .ok coinbase ∧ block.transactions = coinbase :: ordered ∧
      pool.orderedTransactions u = .ok ordered := by
  obtain ⟨-, h⟩ := ite_error_ok.mp h
  obtain ⟨coinbase, hc, h⟩ := bind_ok.mp h
  obtain ⟨ordered, ho, h⟩ := bind_ok.mp h
  exact ⟨_, coinbase, ordered, hc, updateMerkleRoot_transactions h, ho⟩

theorem buildBlockUnordered_transactions {walk : Walk K} {previous block : Block} {pool : Mempool K} {recipient : Bytes}
    {timestamp nonce : UInt64} {difficulty : UInt32}
    (h : buildBlockUnordered K walk previous pool recipient timestamp difficulty nonce = .ok block) :
    ∃ height coinbase, makeCoinbaseTransaction height recipient height = .ok coinbase ∧
      block.transactions = coinbase :: walk.order pool := by
  obtain ⟨-, h⟩ := ite_error_ok.mp h
  obtain ⟨coinbase, hc, h⟩ := bind_ok.mp h
  exact ⟨_, coinbase, hc, updateMerkleRoot_transactions h⟩

theorem Mempool.Bounded.block {pool : Mempool K} (h : pool.Bounded) {block : Block} {coinbase : Transaction}
    {txs : List Transaction} (hb : block.transactions = coinbase :: txs) (hc : coinbase.fullBytes.length = 151)
    (hf : coinbase.Fits uint32Max) (htxs : txs = [] ∨ txs.Perm pool.snapshot) : block.Fits uint32Max ∧
      block.bytes.length = if txs = [] then 287 else pool.mempoolBytes + 4 * pool.size + 287 := by
  have hmem : ∀ tx ∈ txs, tx ∈ pool.snapshot := by
    rcases htxs with rfl | hperm
    · simp
    · exact fun tx htx => hperm.subset htx
  constructor
  · have hlen : txs.length ≤ pool.snapshot.length := by
      rcases htxs with rfl | hperm
      · simp
      · exact hperm.length_eq.le
    have hcount := h.count
    have hmax : maxTransactions + 1 ≤ uint32Max := by decide
    have hbytes : maxTransactionBytes ≤ uint32Max := by decide
    refine ⟨by rw [hb, List.length_cons]; omega, ?_⟩
    rw [hb, List.forall_mem_cons]
    refine ⟨⟨hf, by rw [hc]; decide⟩, fun tx htx => ?_⟩
    exact ⟨snapshot_fits (hmem tx htx), (h.each tx (hmem tx htx)).trans hbytes⟩
  · rw [blockBytes_length, hb, weight, List.map_cons, List.sum_cons, hc, List.length_cons, ← weight]
    rcases htxs with rfl | hperm
    · simp [weight]
    · have hweight : weight txs = pool.mempoolBytes := by
        rw [h.bytes]
        exact (hperm.map _).sum_eq
      have hsize : txs.length = pool.size := by rw [size_eq, hperm.length_eq]
      by_cases hnil : txs = []
      · simp [hnil, weight]
      · rw [if_neg hnil, hweight, hsize]
        omega

theorem updateMerkleRoot_returns {block : Block} (hf : ∀ tx ∈ block.transactions, tx.Fits uint32Max) :
    ∃ updated, block.updateMerkleRoot K = .ok updated := by
  have hids : block.transactions.mapM (Transaction.txid K) = .ok (block.transactions.map (Transaction.id K)) :=
    (mapM_ok (txid_ok K)).mpr ⟨fun tx htx => (hf tx htx).toBaseFits, rfl⟩
  have hwids : block.transactions.mapM (Transaction.wtxid K) = .ok (block.transactions.map (Transaction.wid K)) :=
    (mapM_ok (wtxid_ok K)).mpr ⟨hf, rfl⟩
  rw [Block.updateMerkleRoot, Block.calculateMerkleRoot, Block.calculateWitnessRoot, hids, hwids]
  exact ⟨_, rfl⟩

theorem buildBlock_returns {previous : Block} {pool : Mempool K} {recipient : Bytes} (timestamp nonce : UInt64)
    (difficulty : UInt32) {u : UTXOSet} {ordered : List Transaction} (hheight : previous.header.height + 1 ≠ 0)
    (hne : recipient ≠ []) (hlen : recipient.length ≤ uint32Max) (ho : pool.orderedTransactions u = .ok ordered)
    (hordered : ∀ tx ∈ ordered, tx.Fits uint32Max) : ∃ coinbase block,
      makeCoinbaseTransaction (previous.header.height + 1) recipient (previous.header.height + 1) = .ok coinbase ∧
      Block.updateMerkleRoot K ⟨⟨1, previous.header.height + 1, previous.hash K, Hash256.zero, Hash256.zero, timestamp,
        nonce, difficulty⟩, coinbase :: ordered⟩ = .ok block ∧
      buildBlock K previous pool recipient timestamp difficulty nonce u = .ok block := by
  have hne : ¬ recipient.isEmpty = true := by rwa [List.isEmpty_iff]
  obtain ⟨coinbase, hc⟩ : ∃ coinbase,
      makeCoinbaseTransaction (previous.header.height + 1) recipient (previous.header.height + 1) = .ok coinbase := by
    rw [makeCoinbaseTransaction, if_neg hheight, if_neg hne]
    exact ⟨_, rfl⟩
  obtain ⟨-, hfits⟩ := coinbase_size hlen hc
  obtain ⟨block, hblock⟩ : ∃ block, Block.updateMerkleRoot K ⟨⟨1, previous.header.height + 1, previous.hash K,
      Hash256.zero, Hash256.zero, timestamp, nonce, difficulty⟩, coinbase :: ordered⟩ = .ok block :=
    updateMerkleRoot_returns (List.forall_mem_cons.mpr ⟨hfits, hordered⟩)
  refine ⟨coinbase, block, hc, hblock, ?_⟩
  rw [buildBlock, if_neg hne, bind_ok]
  exact ⟨coinbase, hc, bind_ok.mpr ⟨ordered, ho, hblock⟩⟩

/-- A block built from the pool, and its frame, are within their limits exactly when the pool leaves room for the overhead,
or when nothing of it is taken, as `bare` says. -/
structure Mempool.LimitsKept (pool : Mempool K) (block : Block) (bare : Prop) : Prop where
  alone : block.transactions.length = 1 ↔ bare
  stored : ∃ data, block.serializeFullBinary = .ok data ∧
    (data.length ≤ maxBlockBytes ↔ bare ∨ pool.mempoolBytes + 4 * pool.size + 287 ≤ maxBlockBytes)
  announced : ∃ frame, makeBlocksFrame block = .ok frame ∧
    (frame.payload.length ≤ czrP2PMaxPayload ↔ bare ∨ pool.mempoolBytes + 4 * pool.size + 295 ≤ czrP2PMaxPayload)

theorem Mempool.Admitted.limits {pool : Mempool K} (hpool : pool.Admitted) {block : Block} {publicKey : Bytes}
    {height : UInt64} {coinbase : Transaction} {txs : List Transaction} {bare : Prop}
    (hc : makeCoinbaseTransaction height (addressFromPublicKey K publicKey) height = .ok coinbase)
    (hb : block.transactions = coinbase :: txs) (htxs : txs = [] ∨ txs.Perm pool.snapshot) (hbare : txs = [] ↔ bare) :
    pool.LimitsKept block bare := by
  obtain ⟨hsize, hfits⟩ := coinbase_size (address_le publicKey) hc
  rw [address_length] at hsize
  obtain ⟨hblock, hlen⟩ := hpool.bounded.block hb hsize hfits htxs
  have hu : block.bytes.length ≤ uint32Max := by
    have hroom := hpool.bounded.room
    have hcount := hpool.bounded.count
    rw [← size_eq] at hcount
    have hmax : maxMempoolBytes + 4 * maxTransactions + 287 ≤ uint32Max := by decide
    rw [hlen]
    split <;> omega
  refine ⟨?_, ⟨_, blockSerialize_ok.mpr ⟨hblock, rfl⟩, ?_⟩, ⟨_, makeBlocksFrame_ok hblock hu, ?_⟩⟩
  · rw [hb, List.length_cons, Nat.add_eq_right, List.length_eq_zero_iff, hbare]
  · rw [hlen, ← hbare]
    by_cases hnil : txs = []
    · simp [hnil, maxBlockBytes]
    · simp [hnil]
  · rw [blockFrame_length, hlen, ← hbare]
    by_cases hnil : txs = []
    · simp [hnil, czrP2PMaxPayload]
    · simp only [hnil, if_false, false_or]
      omega

/-- With a UTXO set nothing is taken when the pool cannot be ordered on it or is empty, and without one when it is empty. -/
theorem built_block_fits_iff {pool : Mempool K} (hpool : pool.Admitted) {previous block : Block} {publicKey : Bytes}
    {timestamp nonce : UInt64} {difficulty : UInt32} :
    (∀ u, buildBlock K previous pool (addressFromPublicKey K publicKey) timestamp difficulty nonce u = .ok block →
      pool.LimitsKept block (pool.orderedTransactions u = .ok [])) ∧
    ∀ walk, buildBlockUnordered K walk previous pool (addressFromPublicKey K publicKey) timestamp difficulty nonce =
      .ok block → pool.LimitsKept block (pool.size = 0) := by
  constructor
  · intro u h
    obtain ⟨height, coinbase, ordered, hc, hb, ho⟩ := buildBlock_transactions h
    refine hpool.limits hc hb (orderedTransactions_perm ho) ?_
    rw [ho, Except.ok.injEq]
  · intro walk h
    obtain ⟨height, coinbase, hc, hb⟩ := buildBlockUnordered_transactions h
    refine hpool.limits hc hb (Or.inr (walk.perm pool)) ?_
    rw [size_eq, ← (walk.perm pool).length_eq, List.length_eq_zero_iff]

end

def toyPool : Mempool toyCrypto := ((toyNode [toyGenesis, toyFirst]).acceptTransaction toyPooled).2.mempool

/-- A pool of one transaction leaves the room. -/
theorem built_block_fits_toy : toyPool.size = 1 ∧ ∃ block data frame,
    buildBlockUnordered toyCrypto toyWalk toyFirst toyPool toyAddress 0 0 0 = .ok block ∧
    block.serializeFullBinary = .ok data ∧ makeBlocksFrame block = .ok frame ∧ data.length ≤ maxBlockBytes ∧
    frame.payload.length ≤ czrP2PMaxPayload := by
  have hadmitted : toyPool.Admitted := Mempool.Admitted.acceptTransaction .empty toyPooled
  have hsize : toyPool.size = 1 := by decide +kernel
  have hroom : toyPool.mempoolBytes + 4 * toyPool.size + 295 ≤ czrP2PMaxPayload := by decide +kernel
  have hbuilt : (buildBlockUnordered toyCrypto toyWalk toyFirst toyPool toyAddress 0 0 0).isOk := by decide +kernel
  cases hbuild : buildBlockUnordered toyCrypto toyWalk toyFirst toyPool toyAddress 0 0 0 with
  | error e =>
    rw [hbuild] at hbuilt
    cases hbuilt
  | ok block =>
    obtain ⟨-, ⟨data, hd, hdata⟩, frame, hf, hframe⟩ := (built_block_fits_iff hadmitted).2 toyWalk hbuild
    have hmax : toyPool.mempoolBytes + 4 * toyPool.size + 287 ≤ maxBlockBytes :=
      (Nat.add_le_add_left (by decide) _).trans (hroom.trans (by decide))
    exact ⟨hsize, block, data, frame, rfl, hd, hf, hdata.mpr (Or.inr hmax), hframe.mpr (Or.inr hroom)⟩

/-! ## A full pool

Seventeen transactions of equal size fill the pool. Each spends a coin of its
own, and with `openCrypto` its id is the id of that coin's transaction.
-/

def openCrypto : Crypto where
  sha256 data := ⟨(data.drop 12 ++ List.replicate 32 0).take 32, by simp⟩
  newRawPublicKey raw := some raw
  digestVerify _ _ _ := true

def bigHash (i : Nat) : Hash256 := ⟨leBytes 32 i, leBytes_length 32 i⟩

def bigKey : Bytes := List.replicate 64 48

def bigRecipient : Bytes := List.replicate 986754 0

def bigTransaction (i : Nat) : Transaction := ⟨1, [], [⟨bigHash i, 1⟩], [⟨1, bigRecipient⟩], [⟨bigKey, [0]⟩]⟩

def bigCoin : TransactionOutput := ⟨1, publicKeyToAddress openCrypto bigKey⟩

def bigCoins : Nat → UTXOSet
  | 0 => ∅
  | n + 1 => (bigCoins n).insert ⟨bigHash n, 1⟩ bigCoin

def bigTransactions (n : Nat) : List Transaction := (List.range n).reverse.map bigTransaction

theorem bigRecipient_length : bigRecipient.length = 986754 := List.length_replicate ..

theorem bigRecipient_ne_nil : bigRecipient ≠ [] := List.ne_nil_of_length_pos (by rw [bigRecipient_length]; omega)

theorem bigHash_inj {i j : Nat} (hi : i < 17) (hj : j < 17) (h : bigHash i = bigHash j) : i = j := by
  have hbytes := congrArg leNat (Subtype.mk.inj h)
  rwa [leNat_leBytes 32 i (by omega), leNat_leBytes 32 j (by omega)] at hbytes

theorem bigTransaction_size (i : Nat) : (bigTransaction i).fullBytes.length = 986895 := by
  simp [bigTransaction, Transaction.fullBytes, Transaction.bytes, stringBytes, TransactionInput.serializeBinary,
    TransactionOutput.bytes, TransactionWitness.bytes, bigHash, bigKey, bigRecipient_length]

theorem bigTransaction_fits (i : Nat) : (bigTransaction i).Fits uint32Max := by
  refine ⟨⟨?_, ?_, ?_, ?_⟩, ?_, ?_, ?_⟩
  · simp [bigTransaction]
  · simp [bigTransaction, uint32Max]
  · simp [bigTransaction, uint32Max]
  · simp [bigTransaction, uint32Max, bigRecipient_length]
  · simp [bigTransaction, uint32Max]
  · simp [bigTransaction, uint32Max, bigKey]
  · simp [bigTransaction, uint32Max]

theorem bigTransaction_id (i : Nat) : (bigTransaction i).id openCrypto = bigHash i := by
  obtain ⟨rest, hrest⟩ : ∃ rest, (bigTransaction i).bytes =
      (writeU32 1 ++ stringBytes [] ++ writeSize 1) ++ ((bigHash i).1 ++ rest) := by
    refine ⟨writeU32 1 ++ (writeSize 1 ++ TransactionOutput.bytes ⟨1, bigRecipient⟩), ?_⟩
    simp [bigTransaction, Transaction.bytes, TransactionInput.serializeBinary]
  apply Subtype.ext
  show (((bigTransaction i).bytes.drop 12 ++ List.replicate 32 0).take 32) = _
  rw [hrest, List.drop_left' (by simp [stringBytes]), List.append_assoc, List.take_left' (bigHash i).2]

theorem bigTransaction_plain (i : Nat) : isCoinbaseTransaction (bigTransaction i) = false := rfl

theorem bigTransaction_entry (i : Nat) : (bigTransaction i).entry openCrypto =
    ⟨bigHash i, [⟨bigHash i, 1⟩], [(⟨bigHash i, 0⟩, ⟨1, bigRecipient⟩)]⟩ := by
  rw [Transaction.entry, bigTransaction_id, bigTransaction_plain]
  rfl

theorem bigCoins_lookup : ∀ {n i : Nat}, i < n → (bigCoins n).lookup ⟨bigHash i, 1⟩ = some bigCoin
  | n + 1, i, h => by
    rw [bigCoins]
    by_cases he : (⟨bigHash i, 1⟩ : OutPoint) = ⟨bigHash n, 1⟩
    · rw [he, Finmap.lookup_insert]
    · rw [Finmap.lookup_insert_of_ne _ he]
      have hne : i ≠ n := by
        rintro rfl
        exact he rfl
      exact bigCoins_lookup (by omega)

theorem bigCoins_index : ∀ {n : Nat} {k : OutPoint}, k ∈ bigCoins n → k.outputIndex = 1
  | 0, k, h => absurd h Finmap.notMem_empty
  | n + 1, k, h => by
    rw [bigCoins, Finmap.mem_insert] at h
    rcases h with rfl | h
    · rfl
    · exact bigCoins_index h

theorem bigSpent (n : Nat) : Coins.spent ((bigTransactions n).map (Transaction.entry openCrypto)) =
    (List.range n).reverse.map fun i => ⟨bigHash i, 1⟩ := by
  rw [bigTransactions]
  induction (List.range n).reverse with
  | nil => rfl
  | cons i l ih =>
    rw [List.map_cons, List.map_cons, Coins.spent_cons, ih, bigTransaction_entry]
    rfl

theorem bigCreated (n : Nat) : (Coins.created ((bigTransactions n).map (Transaction.entry openCrypto))).map Prod.fst =
    (List.range n).reverse.map fun i => ⟨bigHash i, 0⟩ := by
  rw [bigTransactions]
  induction (List.range n).reverse with
  | nil => rfl
  | cons i l ih =>
    rw [List.map_cons, List.map_cons, Coins.created_cons, List.map_append, ih, bigTransaction_entry]
    rfl

theorem bigPoints_nodup {n : Nat} (hn : n ≤ 17) (index : UInt32) :
    ((List.range n).reverse.map fun i => (⟨bigHash i, index⟩ : OutPoint)).Nodup := by
  refine List.Nodup.map_on ?_ (List.nodup_reverse.mpr List.nodup_range)
  intro i hi j hj h
  rw [List.mem_reverse, List.mem_range] at hi hj
  exact bigHash_inj (by omega) (by omega) (OutPoint.mk.inj h).1

theorem bigPlaceable {n : Nat} (hn : n ≤ 17) : Placeable openCrypto (bigTransactions n) (bigCoins 17) := by
  have hfresh : Coins.Fresh ((bigTransactions n).map (Transaction.entry openCrypto)) (bigCoins 17) := by
    refine ⟨?_, ?_⟩
    · rw [bigCreated]
      exact bigPoints_nodup hn 0
    · intro k hk hmem
      rw [bigCreated, List.mem_map] at hk
      obtain ⟨i, -, rfl⟩ := hk
      exact absurd (bigCoins_index hmem) (show ¬ (0 : UInt32) = 1 by decide)
  refine ⟨?_, ?_, hfresh⟩
  · intro tx htx
    obtain ⟨i, -, rfl⟩ := List.mem_map.mp htx
    exact bigTransaction_plain i
  · have hin : ∀ k ∈ Coins.spent ((bigTransactions n).map (Transaction.entry openCrypto)), k ∈ bigCoins 17 := by
      intro k hk
      rw [bigSpent, List.mem_map] at hk
      obtain ⟨i, hi, rfl⟩ := hk
      rw [List.mem_reverse, List.mem_range] at hi
      exact Finmap.mem_of_lookup_eq_some (bigCoins_lookup (by omega))
    obtain ⟨w, hw⟩ := Coins.applyAll_isSome (by rw [bigSpent]; exact bigPoints_nodup hn 1) hin hfresh
    exact Coins.applicable_of_applyAll hw

theorem bigTransaction_valid (i : Nat) : (bigTransaction i).validate = true := by
  simp [Transaction.validate, bigTransaction, validateOutputs, bigRecipient_ne_nil, uint64Max]

theorem bigCoin_owned : verifyUtxoOwnership openCrypto bigCoin bigKey = true := by
  have hne : publicKeyToAddress openCrypto bigKey ≠ [] :=
    List.ne_nil_of_length_pos (by rw [publicKeyToAddress, address_length]; omega)
  have hkey : bigKey ≠ [] := List.ne_nil_of_length_pos (by simp [bigKey])
  simp [verifyUtxoOwnership, bigCoin, hne, hkey]

theorem bigTransaction_admissible {i : Nat} {w : UTXOSet} (h : w.lookup ⟨bigHash i, 1⟩ = some bigCoin) :
    validateForMempool (bigTransaction i) w = .none := by
  have hget : w.get (TransactionInput.point ⟨bigHash i, 1⟩) = some bigCoin := h
  have hcontains : w.contains (TransactionInput.point ⟨bigHash i, 1⟩) = true :=
    decide_eq_true (Finmap.mem_of_lookup_eq_some h)
  have hinputs : mempoolInputs w ∅ 0 (bigTransaction i).inputs = .ok 1 := by
    simp [bigTransaction, mempoolInputs, hcontains, hget, bigCoin, uint64Max]
  have houtputs : mempoolOutputs 0 (bigTransaction i).outputs = .ok 1 := by
    simp [bigTransaction, mempoolOutputs, bigRecipient_ne_nil, uint64Max]
  rw [validateForMempool, bigTransaction_valid, hinputs, houtputs]
  rfl

theorem bigTransaction_witnessed {i : Nat} {w : UTXOSet} (h : w.lookup ⟨bigHash i, 1⟩ = some bigCoin) :
    validateTransactionWitness openCrypto (bigTransaction i) w = .ok true := by
  have hget : w.get (TransactionInput.point ⟨bigHash i, 1⟩) = some bigCoin := h
  have hkeys : witnessKeys openCrypto (bigTransaction i).witness = some [List.replicate 32 0] := rfl
  have hvalue : validateTransactionAgainstUtxo (bigTransaction i) w = true := by
    have hinputs : sumInputs w ∅ 0 (bigTransaction i).inputs = some 1 := by
      simp [bigTransaction, sumInputs, hget, bigCoin, uint64Max]
    have houtputs : sumOutputs 0 (bigTransaction i).outputs = some 1 := by
      simp [bigTransaction, sumOutputs, uint64Max]
    rw [validateTransactionAgainstUtxo, bigTransaction_valid, hinputs, houtputs]
    rfl
  have hsigned : verifyTransactionInputSignature openCrypto (bigTransaction i) 0 (List.replicate 32 0) [0] = .ok true := by
    have hm := signingMessage_ok.mpr ⟨show 0 < (bigTransaction i).inputs.length from Nat.zero_lt_one,
      (bigTransaction_fits i).toBaseFits, rfl⟩
    rw [verifyTransactionInputSignature, if_neg (by simp [bigTransaction]), hm]
    rfl
  have hverified : verifyInputs openCrypto (bigTransaction i) w 0
      [(⟨bigHash i, 1⟩, List.replicate 32 0, bigKey, [0])] = .ok true := by
    rw [verifyInputs, hget]
    simp only [bigCoin_owned, hsigned]
    rfl
  rw [validateTransactionWitness, bigTransaction_valid, hkeys]
  show validateSignedTransactionOwnership openCrypto (bigTransaction i) w [List.replicate 32 0] [bigKey] [[0]] = _
  rw [validateSignedTransactionOwnership, bigTransaction_valid, hvalue]
  exact hverified

theorem bigTransactions_succ (n : Nat) : bigTransactions (n + 1) = bigTransaction n :: bigTransactions n := by
  rw [bigTransactions, List.range_succ, List.reverse_append]
  rfl

theorem bigWeight (n : Nat) : weight (bigTransactions n) = n * 986895 := by
  induction n with
  | zero => rfl
  | succ n ih =>
    rw [weight] at ih
    rw [bigTransactions_succ, weight, List.map_cons, List.sum_cons, ih, bigTransaction_size]
    omega

theorem bigEffective {n : Nat} (hn : n < 17) {pool : Mempool openCrypto} (hsnap : pool.snapshot = bigTransactions n) :
    ∃ w, pool.buildEffectiveUtxo (bigCoins 17) = .ok (some w) ∧ w.lookup ⟨bigHash n, 1⟩ = some bigCoin := by
  obtain ⟨ordered, w, hperm, hw, heff⟩ := buildEffectiveUtxo_ok (hsnap ▸ bigPlaceable hn.le)
  rw [hsnap] at hperm
  have hentries := hperm.map (Transaction.entry openCrypto)
  refine ⟨w, heff, ?_⟩
  rw [Coins.applyAll_lookup_eq hw, bigCoins_lookup hn]
  · intro hk
    rw [(Coins.spent_perm hentries).mem_iff, bigSpent, List.mem_map] at hk
    obtain ⟨i, hi, he⟩ := hk
    rw [List.mem_reverse, List.mem_range] at hi
    have := bigHash_inj (by omega) hn (OutPoint.mk.inj he).1
    omega
  · intro hk
    rw [(Coins.created_perm hentries).mem_iff, bigCreated, List.mem_map] at hk
    obtain ⟨i, -, he⟩ := hk
    exact absurd (OutPoint.mk.inj he).2 (by decide)

theorem bigTransaction_points {n : Nat} {k : OutPoint} : k ∈ (bigTransaction n).points ↔ k = ⟨bigHash n, 1⟩ :=
  List.mem_singleton

theorem bigPool (n : Nat) (hn : n ≤ 17) : ∃ pool : Mempool openCrypto, pool.Admitted ∧ pool.snapshot = bigTransactions n ∧
    ∀ k ∈ pool.reservedInputs, ∃ i < n, k = ⟨bigHash i, 1⟩ := by
  induction n with
  | zero => exact ⟨Mempool.empty openCrypto, .empty, rfl, by simp [Mempool.empty]⟩
  | succ n ih =>
    obtain ⟨pool, hpool, hsnap, hreserved⟩ := ih (by omega)
    obtain ⟨w, heff, hcoin⟩ := bigEffective (by omega) hsnap
    have hother : ∀ i < n, bigHash i ≠ bigHash n := by
      intro i hi he
      have := bigHash_inj (by omega) (by omega) he
      omega
    have hnew : pool.contains ((bigTransaction n).id openCrypto) = false := by
      rw [Bool.eq_false_iff, ne_eq, contains_iff, hsnap]
      rintro ⟨tx, htx, hid⟩
      obtain ⟨i, hi, rfl⟩ := List.mem_map.mp htx
      rw [List.mem_reverse, List.mem_range] at hi
      rw [bigTransaction_id, bigTransaction_id] at hid
      exact hother i hi hid
    have hfree : ∀ k ∈ (bigTransaction n).points, k ∉ pool.reservedInputs := by
      intro k hk hr
      obtain ⟨i, hi, rfl⟩ := hreserved k hr
      exact hother i hi (OutPoint.mk.inj (bigTransaction_points.mp hk)).1
    have hcount : pool.size < maxTransactions := by
      rw [size_eq, hsnap, bigTransactions, List.length_map, List.length_reverse, List.length_range, maxTransactions]
      omega
    have hroom : pool.mempoolBytes + (bigTransaction n).fullBytes.length ≤ maxMempoolBytes := by
      rw [hpool.bounded.bytes, hsnap, bigWeight, bigTransaction_size, maxMempoolBytes]
      omega
    obtain ⟨after, hacc⟩ := accept_admits (bigTransaction_fits n) hnew hcount
      (by rw [bigTransaction_size, maxTransactionBytes]; omega) hroom hfree heff (bigTransaction_admissible hcoin)
      (bigTransaction_witnessed hcoin)
    rcases accept_ok hacc with ⟨hne, -⟩ | ⟨-, hafter, hinputs, -⟩
    · exact absurd rfl hne
    · refine ⟨after, hpool.accept hacc, by rw [hafter, hsnap, bigTransactions_succ], ?_⟩
      intro k hk
      rw [hinputs, Finset.mem_union, List.mem_toFinset] at hk
      rcases hk with hk | hk
      · obtain ⟨i, hi, rfl⟩ := hreserved k hk
        exact ⟨i, by omega, rfl⟩
      · exact ⟨n, by omega, bigTransaction_points.mp hk⟩

/-- The pool admits every transaction, and the block built from it is too large to be stored and to be announced. -/
theorem full_pool_too_large : ∃ (pool : Mempool openCrypto) (block : Block) (data : Bytes) (frame : P2PFrame),
    pool.Admitted ∧
    buildBlock openCrypto toyGenesis pool (addressFromPublicKey openCrypto bigKey) 0 0 0 (bigCoins 17) = .ok block ∧
    block.serializeFullBinary = .ok data ∧ makeBlocksFrame block = .ok frame ∧
    data.length = maxBlockBytes + 354 ∧ frame.payload.length > czrP2PMaxPayload := by
  obtain ⟨pool, hpool, hsnap, -⟩ := bigPool 17 (Nat.le_refl _)
  obtain ⟨ordered, w, ho, hperm, -⟩ := orderedTransactions_ok (hsnap ▸ bigPlaceable (Nat.le_refl _))
  have hheight : toyGenesis.header.height + 1 ≠ 0 := by decide
  have haddress : addressFromPublicKey openCrypto bigKey ≠ [] :=
    List.ne_nil_of_length_pos (by rw [address_length]; omega)
  obtain ⟨coinbase, block, hc, hroots, hbuild⟩ := buildBlock_returns 0 0 0 hheight haddress (address_le bigKey) ho
    fun tx htx => snapshot_fits (hperm.subset htx)
  obtain ⟨hsize, hfits⟩ := coinbase_size (address_le bigKey) hc
  rw [address_length] at hsize
  have hb := updateMerkleRoot_transactions hroots
  obtain ⟨hblock, hlen⟩ := hpool.bounded.block hb hsize hfits (Or.inr hperm)
  have hcount : pool.size = 17 := by
    rw [size_eq, hsnap, bigTransactions, List.length_map, List.length_reverse, List.length_range]
  have hne : ordered ≠ [] := by
    rintro rfl
    rw [size_eq, ← hperm.length_eq] at hcount
    cases hcount
  rw [if_neg hne, hpool.bounded.bytes, hsnap, bigWeight, hcount] at hlen
  refine ⟨pool, block, _, _, hpool, hbuild, blockSerialize_ok.mpr ⟨hblock, rfl⟩,
    makeBlocksFrame_ok hblock (by rw [hlen]; decide), by rw [hlen, maxBlockBytes], ?_⟩
  rw [blockFrame_length, hlen, czrP2PMaxPayload]
  omega

end Caesar
