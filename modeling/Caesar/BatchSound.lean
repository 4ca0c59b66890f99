import Caesar.Batch
import Caesar.OrderSound
import Caesar.ServeSound

/-!
# A batch is validated block by block

The loop keeps the UTXO set and the issuance of its chain, so each block is taken
exactly when `validate_block_consensus` takes it on the chain so far, and a block
that is not taken changes nothing.
-/

namespace Caesar

open InPlace Codec

/-! ## What the routines compute -/

theorem spendInPlace_outcome : ∀ (inputs : List TransactionInput) (u : UTXOSet),
    outcome (spendInPlace inputs) u = .ok (spendInputs inputs u)
  | [], u => rfl
  | input :: rest, u => by
    rw [spendInPlace, outcome_andThen, outcome_attempt, spendInputs]
    cases u.spend input.point with
    | none => rfl
    | some w => exact spendInPlace_outcome rest w

theorem addInPlace_outcome (txid : Hash256) : ∀ (i : Nat) (outputs : List TransactionOutput) (u : UTXOSet),
    outcome (addInPlace txid i outputs) u = .ok (addOutputs txid i outputs u)
  | _, [], u => rfl
  | i, output :: rest, u => by
    rw [addInPlace, addOutputs]
    by_cases hi : i > uint32Max
    · rw [if_pos hi, if_pos hi]
      rfl
    · rw [if_neg hi, if_neg hi, outcome_andThen, outcome_attempt]
      cases u.add ⟨txid, UInt32.ofNat i⟩ output with
      | none => rfl
      | some w => exact addInPlace_outcome txid (i + 1) rest w

theorem issueInPlace_outcome : ∀ (outputs : List TransactionOutput) (total : UInt64),
    outcome (issueInPlace outputs) total = .ok (addIssuedOutputs outputs total)
  | [], total => rfl
  | output :: rest, total => by
    rw [issueInPlace, outcome_andThen, outcome_attempt, addIssuedOutputs]
    by_cases hover : output.amount > czrMaxSupply - total
    · rw [if_pos hover, if_pos hover]
    · rw [if_neg hover, if_neg hover]
      exact issueInPlace_outcome rest _

theorem issueBlockInPlace_outcome (block : Block) (total : UInt64) :
    outcome (issueBlockInPlace block) total = .ok (addCoinbaseIssuance block total) := by
  unfold issueBlockInPlace addCoinbaseIssuance
  cases block.transactions with
  | nil => rfl
  | cons coinbase rest =>
    dsimp only
    split
    · rfl
    · exact issueInPlace_outcome _ _

section
variable {K : Crypto}

theorem outcome_txid (tx : Transaction) (outputs : List TransactionOutput) (u : UTXOSet) :
    outcome (using_ (tx.txid K) fun txid => addInPlace txid 0 outputs) u =
      (do let txid ← tx.txid K; pure (addOutputs txid 0 outputs u)) := by
  cases tx.txid K with
  | error e => rfl
  | ok txid => exact addInPlace_outcome txid 0 outputs u

theorem applyTransactionInPlace_outcome (tx : Transaction) (u : UTXOSet) :
    outcome (applyTransactionInPlace K tx) u = applyTransaction K tx u := by
  unfold applyTransactionInPlace applyTransaction
  by_cases hc : isCoinbaseTransaction tx = true
  · rw [if_pos hc, if_pos hc]
    rfl
  · rw [if_neg hc, if_neg hc, outcome_check]
    rcases validateTransactionWitness K tx u with _ | _ | _
    · rfl
    · rfl
    · dsimp only
      rw [outcome_andThen, spendInPlace_outcome]
      cases spendInputs tx.inputs u with
      | none => rfl
      | some w => exact outcome_txid tx tx.outputs w

theorem applyTransactionsInPlace_outcome : ∀ (txs : List Transaction) (u : UTXOSet),
    outcome (applyTransactionsInPlace K txs) u = applyTransactions K txs u
  | [], u => rfl
  | tx :: rest, u => by
    rw [applyTransactionsInPlace, outcome_andThen, applyTransactionInPlace_outcome, applyTransactions]
    rcases applyTransaction K tx u with _ | _ | w
    · rfl
    · rfl
    · exact applyTransactionsInPlace_outcome rest w

theorem applyBlockInPlace_outcome (block : Block) (u : UTXOSet) :
    outcome (applyBlockInPlace K block) u = applyBlockTransactionsInPlaceAfterBasicValidation K block u := by
  unfold applyBlockInPlace applyBlockTransactionsInPlaceAfterBasicValidation applyCoinbase
  cases block.transactions with
  | nil => rfl
  | cons coinbase rest =>
    dsimp only
    by_cases hv : validateCoinbaseTransaction coinbase block.header.height = true
    · rw [hv, if_neg (by simp), if_neg (by simp), outcome_andThen, outcome_txid]
      rcases coinbase.txid K with _ | txid
      · rfl
      · have hpure : (do let txid ← Except.ok txid; pure (addOutputs txid 0 coinbase.outputs u) : Result (Option UTXOSet)) =
            .ok (addOutputs txid 0 coinbase.outputs u) := rfl
        rw [hpure]
        cases addOutputs txid 0 coinbase.outputs u with
        | none => rfl
        | some w => exact applyTransactionsInPlace_outcome rest w
    · rw [Bool.not_eq_true] at hv
      rw [hv, if_pos (by simp), if_pos (by simp)]
      rfl

theorem relayBlockInPlace_eq (st : Node.RelayState) (block : Block) :
    Node.relayBlockInPlace K st block = Node.relayBlock K st block := by
  have hissue := issueBlockInPlace_outcome block st.totalIssued
  have happly := applyBlockInPlace_outcome (K := K) block st.utxos
  unfold Node.relayBlockInPlace Node.relayBlock
  refine congrArg _ (funext fun basic => ?_)
  split
  · rfl
  · cases st.chain.getLast? with
    | none => rfl
    | some previous =>
      dsimp only
      split
      · rfl
      split
      · rfl
      split
      · rfl
      split
      · rfl
      cases htotal : addCoinbaseIssuance block st.totalIssued with
      | none =>
        rw [htotal] at hissue
        rw [outcome_none hissue]
        rfl
      | some total =>
        rw [htotal] at hissue
        rw [outcome_some hissue]
        cases hset : applyBlockTransactionsInPlaceAfterBasicValidation K block st.utxos with
        | error e =>
          rw [hset] at happly
          rw [outcome_error happly]
          rfl
        | ok applied =>
          rw [hset] at happly
          cases applied with
          | none =>
            rw [outcome_none happly]
            rfl
          | some w =>
            rw [outcome_some happly]
            rfl

/-! ## A block that was read makes no check throw -/

theorem validateRoots_returns {block : Block} (hf : ∀ tx ∈ block.transactions, tx.Fits uint32Max) :
    ∃ valid, block.validateRoots K = .ok valid := by
  obtain ⟨updated, h⟩ := updateMerkleRoot_returns (K := K) hf
  obtain ⟨root, witness, hroot, hwitness, -⟩ := updateMerkleRoot_ok h
  simp only [Block.validateRoots, Block.validateMerkleRoot, Block.validateWitnessRoot, hroot, hwitness]
  by_cases hm : block.header.merkleRoot = root
  · exact ⟨block.header.witnessRoot = witness, by simp [hm, bind, Except.bind, pure, Except.pure]⟩
  · exact ⟨false, by simp [hm, bind, Except.bind, pure, Except.pure]⟩

theorem validateBasic_returns {block : Block} (hf : ∀ tx ∈ block.transactions, tx.Fits uint32Max) :
    ∃ valid, block.validateBasic K = .ok valid := by
  unfold Block.validateBasic
  repeat' split
  all_goals first
    | exact ⟨false, rfl⟩
    | exact validateRoots_returns hf

theorem applyTransaction_returns {tx : Transaction} (hf : tx.BaseFits uint32Max) (u : UTXOSet) :
    ∃ r, applyTransaction K tx u = .ok r := by
  obtain ⟨valid, hv⟩ := validateTransactionWitness_returns (K := K) (u := u) hf
  unfold applyTransaction
  rw [hv, (txid_ok K tx _).mpr ⟨hf, rfl⟩]
  split
  · exact ⟨none, rfl⟩
  · cases valid with
    | false => exact ⟨none, rfl⟩
    | true =>
      cases spendInputs tx.inputs u with
      | none => exact ⟨none, rfl⟩
      | some w => exact ⟨addOutputs (tx.id K) 0 tx.outputs w, rfl⟩

theorem applyTransactions_returns : ∀ {txs : List Transaction}, (∀ tx ∈ txs, tx.BaseFits uint32Max) → ∀ u : UTXOSet,
    ∃ r, applyTransactions K txs u = .ok r
  | [], _, u => ⟨some u, rfl⟩
  | tx :: rest, hf, u => by
    rw [List.forall_mem_cons] at hf
    obtain ⟨r, hr⟩ := applyTransaction_returns (K := K) hf.1 u
    rw [applyTransactions, hr]
    cases r with
    | none => exact ⟨none, rfl⟩
    | some w => exact applyTransactions_returns hf.2 w

theorem applyBlock_returns {block : Block} (hf : ∀ tx ∈ block.transactions, tx.BaseFits uint32Max) (u : UTXOSet) :
    ∃ r, applyBlockTransactionsInPlaceAfterBasicValidation K block u = .ok r := by
  unfold applyBlockTransactionsInPlaceAfterBasicValidation applyCoinbase
  cases hb : block.transactions with
  | nil => exact ⟨none, rfl⟩
  | cons coinbase rest =>
    rw [hb, List.forall_mem_cons] at hf
    dsimp only
    rw [(txid_ok K coinbase _).mpr ⟨hf.1, rfl⟩]
    split
    · exact ⟨none, rfl⟩
    · have hpure : (do let txid ← Except.ok (coinbase.id K); pure (addOutputs txid 0 coinbase.outputs u) :
          Result (Option UTXOSet)) = .ok (addOutputs (coinbase.id K) 0 coinbase.outputs u) := rfl
      rw [hpure]
      cases addOutputs (coinbase.id K) 0 coinbase.outputs u with
      | none => exact ⟨none, rfl⟩
      | some w => exact applyTransactions_returns hf.2 w

theorem consensus_returns {block : Block} (hf : ∀ tx ∈ block.transactions, tx.Fits uint32Max) (chain : List Block)
    (u : UTXOSet) : ∃ valid, validateBlockConsensus K block chain u = .ok valid := by
  obtain ⟨basic, hb⟩ := validateBasic_returns (K := K) hf
  obtain ⟨applied, ha⟩ := applyBlock_returns (K := K) (fun tx htx => (hf tx htx).toBaseFits) u
  unfold validateBlockConsensus validateBlockAgainstUtxo applyBlockTransactionsCanonical
  rw [hb, ha]
  cases chain.getLast? with
  | none => exact ⟨false, rfl⟩
  | some previous =>
    cases basic with
    | false => exact ⟨false, rfl⟩
    | true =>
      simp only [bind, Except.bind, pure, Except.pure, Bool.not_true, Bool.false_eq_true, if_false]
      repeat' split
      all_goals exact ⟨_, rfl⟩

theorem relayBlock_returns {block : Block} (hf : ∀ tx ∈ block.transactions, tx.Fits uint32Max) (st : Node.RelayState) :
    ∃ st', Node.relayBlock K st block = .ok st' := by
  obtain ⟨basic, hb⟩ := validateBasic_returns (K := K) hf
  obtain ⟨applied, ha⟩ := applyBlock_returns (K := K) (fun tx htx => (hf tx htx).toBaseFits) st.utxos
  unfold Node.relayBlock
  rw [hb, ha]
  cases basic with
  | false => exact ⟨st, rfl⟩
  | true =>
    simp only [bind, Except.bind, pure, Except.pure, Bool.not_true, Bool.false_eq_true, if_false]
    repeat' split
    all_goals exact ⟨_, rfl⟩

/-! ## One block, and the batch -/

/-- A block is appended when `validate_block_consensus` takes it with the UTXO set of the chain. -/
def relayReference (K : Crypto) (chain : List Block) (block : Block) : Result (List Block) := do
  let utxos ← rebuildUtxoSet K chain
  let valid ← validateBlockConsensus K block chain utxos
  pure (if valid then chain ++ [block] else chain)

theorem relayReference_ok {chain : List Block} {block : Block} {u : UTXOSet} {t : UInt64} (hr : Replay K chain u t)
    {valid : Bool} (hv : validateBlockConsensus K block chain u = .ok valid) :
    relayReference K chain block = .ok (if valid then chain ++ [block] else chain) := by
  exact bind_ok.mpr ⟨u, rebuildUtxoSet_ok.mpr ⟨t, hr⟩, bind_ok.mpr ⟨valid, hv, rfl⟩⟩

/-- A round of the loop does what the reference does, and keeps the UTXO set and the issuance of its chain. -/
theorem relayBlock_reference {st : Node.RelayState} {block : Block} (hr : Replay K st.chain st.utxos st.totalIssued)
    (hf : ∀ tx ∈ block.transactions, tx.Fits uint32Max) : ∃ st', Node.relayBlock K st block = .ok st' ∧
      Replay K st'.chain st'.utxos st'.totalIssued ∧ relayReference K st.chain block = .ok st'.chain ∧
      (validateBlockConsensus K block st.chain st.utxos = .ok false → st' = st) := by
  obtain ⟨valid, hv⟩ := consensus_returns (K := K) hf st.chain st.utxos
  rw [relayReference_ok hr hv, hv]
  cases valid with
  | true =>
    obtain ⟨u, t, ha⟩ := (consensus_iff_appends hr).mp hv
    exact ⟨_, relayBlock_eq ha, .snoc hr ha, rfl, fun h => by cases h⟩
  | false =>
    obtain ⟨st', hst⟩ := relayBlock_returns (K := K) hf st
    rcases relayBlock_ok hst with rfl | ⟨-, ha⟩
    · exact ⟨_, hst, hr, rfl, fun _ => rfl⟩
    · rw [(consensus_iff_appends hr).mpr ⟨_, _, ha⟩] at hv
      cases hv

theorem relayBlocks_reference : ∀ {blocks : List Block} (st : Node.RelayState),
    Replay K st.chain st.utxos st.totalIssued → (∀ block ∈ blocks, ∀ tx ∈ block.transactions, tx.Fits uint32Max) →
    ∃ st', blocks.foldlM (Node.relayBlock K) st = .ok st' ∧ Replay K st'.chain st'.utxos st'.totalIssued ∧
      blocks.foldlM (relayReference K) st.chain = .ok st'.chain
  | [], st, hr, _ => ⟨st, rfl, hr, rfl⟩
  | block :: blocks, st, hr, hf => by
    rw [List.forall_mem_cons] at hf
    obtain ⟨next, hnext, hr', href, -⟩ := relayBlock_reference hr hf.1
    obtain ⟨last, hlast, hr'', href'⟩ := relayBlocks_reference next hr' hf.2
    refine ⟨last, ?_, hr'', ?_⟩
    · rw [List.foldlM_cons, hnext]
      exact hlast
    · rw [List.foldlM_cons, href]
      exact href'

/-- A batch leaves the chain that the reference makes of it block by block. After each block the loop, which changes its
copies in place, has the UTXO set and the issuance of its chain, and a block that is refused changes nothing. -/
theorem batch_relay_folds {node : Node K} {chain : List Block} (hload : node.storage.load K = .ok chain) {payload : Bytes}
    {blocks : List Block}
    (hread : readAll Node.readRelayedBlocks "trailing bytes in relayed blocks payload" payload = .ok blocks) :
    (∃ after, blocks.foldlM (relayReference K) chain = .ok after ∧
      node.handleBlocks payload = (.ok (), { node with storage := some after })) ∧
    Node.relayBlock K = Node.relayBlockInPlace K ∧
    ∃ u t, rebuildUtxoSet K chain = .ok u ∧ chainIssuance chain 0 = some t ∧ ∀ n, ∃ st : Node.RelayState,
      (blocks.take n).foldlM (Node.relayBlockInPlace K) ⟨chain, u, t⟩ = .ok st ∧
      (blocks.take n).foldlM (relayReference K) chain = .ok st.chain ∧
      rebuildUtxoSet K st.chain = .ok st.utxos ∧ chainIssuance st.chain 0 = some st.totalIssued ∧
      ∀ block ∈ blocks, validateBlockConsensus K block st.chain st.utxos = .ok false →
        Node.relayBlockInPlace K st block = .ok st := by
  obtain ⟨-, hl⟩ := load_ok.mp hload
  obtain ⟨u, t, hr⟩ := hl.replay
  obtain ⟨-, hblocks⟩ := ((readRelayedBlocks_exact _ _ _).mp (readAll_ok.mp hread)).1
  have hfits : ∀ block ∈ blocks, ∀ tx ∈ block.transactions, tx.Fits uint32Max :=
    fun block hb tx htx => (((hblocks block hb).1.mono decodeLimit_le).transactions tx htx).1
  have hloop : Node.relayBlock K = Node.relayBlockInPlace K := by
    funext st block
    exact (relayBlockInPlace_eq st block).symm
  refine ⟨?_, hloop, u, t, rebuildUtxoSet_ok.mpr ⟨t, hr⟩, hr.chainIssuance, ?_⟩
  · obtain ⟨st, hst, -, href⟩ := relayBlocks_reference ⟨chain, u, t⟩ hr hfits
    exact ⟨st.chain, href, handleBlocks_fold hload hread hr hst⟩
  · intro n
    obtain ⟨st, hst, hr', href⟩ := relayBlocks_reference ⟨chain, u, t⟩ hr
      fun block hb => hfits block (List.mem_of_mem_take hb)
    rw [← hloop]
    refine ⟨st, hst, href, rebuildUtxoSet_ok.mpr ⟨_, hr'⟩, hr'.chainIssuance, ?_⟩
    intro block hb hrefused
    obtain ⟨st', hst', -, -, hsame⟩ := relayBlock_reference hr' (hfits block hb)
    rw [hst', hsame hrefused]

end

/-! ## A duplicate, a double spend and a good block -/

/-- Its last transaction spends what the one before it has spent. -/
def toyDouble : Block := toyNext toyFirst [toyCoinbase 2, toySpend (toyCoinbase 1) 5, toySpend (toyCoinbase 1) 4]

def toyBatch : List Block := [toyFirst, toyDouble, toySecond]

theorem batch_relay_folds_toy : (applyBlockInPlace toyCrypto toyDouble toyUtxos).1 = .ok false ∧
    (applyBlockInPlace toyCrypto toyDouble toyUtxos).2 ≠ toyUtxos ∧
    (toyNode [toyGenesis, toyFirst]).handleBlocks (blocksFrameOf toyBatch).payload =
      (.ok (), { toyNode [toyGenesis, toyFirst] with storage := some [toyGenesis, toyFirst, toySecond] }) := by
  have hread : readAll Node.readRelayedBlocks "trailing bytes in relayed blocks payload" (blocksFrameOf toyBatch).payload =
      .ok toyBatch := by decide +kernel
  obtain ⟨⟨after, hfold, hnode⟩, -⟩ := batch_relay_folds toyPair_loaded hread
  have hafter : toyBatch.foldlM (relayReference toyCrypto) [toyGenesis, toyFirst] =
      .ok [toyGenesis, toyFirst, toySecond] := by decide +kernel
  rw [hafter] at hfold
  cases hfold
  exact ⟨by decide +kernel, by decide +kernel, hnode⟩

end Caesar
