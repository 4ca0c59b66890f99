import Caesar.CommitSound
import Caesar.ConsensusSound
import Caesar.Relay
import Caesar.WorkSound

/-!
# What a call does to the node

Loading gives back exactly the chain that was saved, and only when it is valid
(`load_ok`). `Step` lists everything that a call can do: leave the node as it
is, admit a transaction, append a mined block, replace the chain by one with
more work, or append relayed blocks. Every invariant of a run is checked
against `Step` alone.
-/

namespace Caesar

open Codec

/-! ## Reading back what was written -/

theorem writeSize_exact : Exact (readCount uint32Max "") (fun n => n ≤ uint32Max) writeSize :=
  fun _ _ _ => readCount_ok (Nat.le_refl _)

theorem blockBytes_inj {b b' : Block} (h : b.Fits uint32Max) (h' : b'.Fits uint32Max) (he : b.bytes = b'.bytes) :
    b = b' := by
  obtain ⟨hheader, he⟩ := readHeader_exact.inj trivial trivial he
  obtain ⟨hcount, he⟩ := writeSize_exact.inj h.count h'.count he
  have hread : ∀ {block : Block}, block.Fits uint32Max →
      readMany readString block.transactions.length (block.transactions.flatMap fun tx => stringBytes tx.fullBytes) =
        .ok (block.transactions.map Transaction.fullBytes, []) := by
    intro block hf
    refine (readMany_ok (fun _ _ _ => readString_ok) _ _ _ _).mpr ⟨by simp, fun x hx => ?_, by simp [List.flatMap_map]⟩
    obtain ⟨tx, htx, rfl⟩ := List.mem_map.mp hx
    exact (hf.transactions tx htx).2
  have hfull : b.transactions.map Transaction.fullBytes = b'.transactions.map Transaction.fullBytes := by
    have := hread h
    rw [he, hcount, hread h', Except.ok.injEq, Prod.mk.injEq] at this
    exact this.1.symm
  have htxs : b.transactions = b'.transactions :=
    map_inj_on (fun tx htx tx' htx' => fullBytes_inj (h.transactions tx htx).1 (h'.transactions tx' htx').1) hfull
  cases b
  cases b'
  simp only at hheader htxs
  rw [hheader, htxs]

theorem blockBytes_pos (block : Block) : 0 < block.bytes.length := by
  simp [Block.bytes]

def Block.Stored (block : Block) : Prop := block.Fits decodeLimit ∧ block.bytes.length ≤ maxBlockBytes

theorem readStoredBlock_ok (block b : Block) : readStoredBlock block = .ok b ↔ block.Stored ∧ b = block := by
  have hpos := blockBytes_pos block
  simp only [readStoredBlock, bind_ok, blockSerialize_ok, ite_error_ok, blockDeserialize_ok, Block.Stored]
  refine ⟨?_, ?_⟩
  · intro h
    obtain ⟨_, ⟨hf, rfl⟩, hsize, hb, he⟩ := h
    have hbb := blockBytes_inj hf (hb.mono decodeLimit_le) he
    exact ⟨⟨hbb ▸ hb, by omega⟩, hbb.symm⟩
  · intro h
    obtain ⟨⟨hf, hsize⟩, rfl⟩ := h
    exact ⟨_, ⟨hf.mono decodeLimit_le, rfl⟩, by omega, hf, rfl⟩

section
variable {K : Crypto}

structure Loadable (K : Crypto) (chain : List Block) : Prop where
  count : chain.length ≤ maxBlocks
  stored : ∀ block ∈ chain, block.Stored
  valid : validateCandidateChain K chain = .ok true

theorem ite_not_fail {c : Bool} {α : Type} {what : String} {x : Result α} {r : α} :
    (if !c then fail what else x) = .ok r ↔ c = true ∧ x = .ok r := by
  cases c <;> simp

theorem load_ok {storage : BlockchainStorage} {chain : List Block} :
    storage.load K = .ok chain ↔ storage = some chain ∧ Loadable K chain := by
  cases storage with
  | none => simp [BlockchainStorage.load]
  | some stored =>
    simp only [BlockchainStorage.load, ite_error_ok, bind_ok, mapM_ok readStoredBlock_ok, List.map_id', pure_ok,
      Bool.not_eq_true', Bool.not_eq_false, Option.some.injEq]
    refine ⟨?_, ?_⟩
    · intro h
      obtain ⟨hcount, _, ⟨hs, rfl⟩, valid, hv, rfl, rfl⟩ := h
      exact ⟨rfl, by omega, hs, hv⟩
    · intro h
      obtain ⟨rfl, hcount, hs, hv⟩ := h
      obtain ⟨u, t, hr⟩ := candidate_iff.mp hv
      have := List.length_pos_of_ne_nil hr.ne_nil
      exact ⟨by omega, _, ⟨hs, rfl⟩, true, hv, rfl, rfl⟩

theorem Loadable.replay {chain : List Block} (h : Loadable K chain) : ∃ u t, Replay K chain u t :=
  candidate_iff.mp h.valid

theorem writeBlock_ok (block : Block) (b : Bytes) :
    writeBlock block = .ok b ↔ (block.Fits uint32Max ∧ block.bytes.length ≤ maxBlockBytes) ∧ b = block.bytes := by
  have hpos := blockBytes_pos block
  have hmax : maxBlockBytes ≤ uint32Max := by decide
  have hne : block.bytes.isEmpty = false := by simpa using List.ne_nil_of_length_pos hpos
  simp only [writeBlock, bind_ok, blockSerialize_ok, ite_error_ok, pure_ok]
  refine ⟨?_, ?_⟩
  · intro h
    obtain ⟨_, ⟨hf, rfl⟩, hsize, -, rfl⟩ := h
    simp only [hne, Bool.false_or, decide_eq_true_eq, Nat.not_lt] at hsize
    exact ⟨⟨hf, hsize⟩, rfl⟩
  · intro h
    obtain ⟨⟨hf, hsize⟩, rfl⟩ := h
    refine ⟨_, ⟨hf, rfl⟩, ?_, by omega, rfl⟩
    simpa [hne] using hsize

theorem save_ok {chain : List Block} {storage : BlockchainStorage} : BlockchainStorage.save K chain = .ok storage ↔
    storage = some chain ∧ validateCandidateChain K chain = .ok true ∧
      ∀ block ∈ chain, block.Fits uint32Max ∧ block.bytes.length ≤ maxBlockBytes := by
  simp only [BlockchainStorage.save, ite_error_ok, bind_ok, mapM_ok writeBlock_ok, Bool.not_eq_true',
    Bool.not_eq_false, pure_ok]
  refine ⟨?_, ?_⟩
  · intro h
    obtain ⟨-, valid, hv, rfl, _, ⟨hs, rfl⟩, rfl⟩ := h
    exact ⟨rfl, hv, hs⟩
  · intro h
    obtain ⟨rfl, hv, hs⟩ := h
    obtain ⟨u, t, hr⟩ := candidate_iff.mp hv
    exact ⟨by simp [hr.ne_nil], true, hv, rfl, _, ⟨hs, rfl⟩, rfl⟩

theorem append_ok {storage after : BlockchainStorage} {chain : List Block} {block : Block}
    (hload : storage.load K = .ok chain) (h : storage.append K block = .ok after) :
    BlockchainStorage.save K (chain ++ [block]) = .ok after := by
  obtain ⟨rfl, hl⟩ := load_ok.mp hload
  obtain ⟨u, t, hr⟩ := hl.replay
  obtain ⟨previous, hlast⟩ : ∃ previous, chain.getLast? = some previous := ⟨_, List.getLast?_eq_some_getLast hr.ne_nil⟩
  simp only [BlockchainStorage.append, Option.isSome_some, ite_true, hload, bind_ok, Except.ok.injEq,
    exists_eq_left', hlast, ite_error_ok] at h
  obtain ⟨-, -, -, h⟩ := h
  unfold BlockchainStorage.checkAppended at h
  split at h
  · rw [ite_error_ok] at h
    obtain ⟨basic, -, h⟩ := bind_ok.mp h.2
    split at h
    · obtain ⟨_, -, h⟩ := bind_ok.mp h
      obtain ⟨_, -, h⟩ := bind_ok.mp h
      exact absurd h fail_ne_ok
    · exact h
  · obtain ⟨_, -, h⟩ := bind_ok.mp h
    obtain ⟨_, -, h⟩ := bind_ok.mp h
    exact (ite_not_fail.mp h).2

/-! ## Relayed blocks -/

/-- A block of a batch is skipped, or passes what the replay of the longer chain checks. -/
theorem relayBlock_ok {st st' : Node.RelayState} {block : Block} (h : Node.relayBlock K st block = .ok st') :
    st' = st ∨ st'.chain = st.chain ++ [block] ∧
      Appends K st.chain st.utxos st.totalIssued block st'.utxos st'.totalIssued := by
  obtain ⟨basic, hb, h⟩ := bind_ok.mp h
  cases hl : st.chain.getLast? with
  | none => cases basic <;> simp [hl] at h <;> exact Or.inl h.symm
  | some previous =>
    simp only [hl] at h
    by_cases hbt : basic = true
    · subst hbt
      simp only [Bool.not_true, Bool.false_eq_true, ite_false] at h
      repeat' split at h
      all_goals first
        | exact Or.inl (pure_ok.mp h).symm
        | skip
      rename_i hheight hprev htime hdiff _ total ht
      obtain ⟨applied, ha, h⟩ := bind_ok.mp h
      cases applied with
      | none => exact Or.inl (pure_ok.mp h).symm
      | some utxos =>
        refine Or.inr ?_
        rw [← pure_ok.mp h]
        exact ⟨rfl, hb, ⟨previous, hl, not_not.mp hheight, not_not.mp hprev, htime, not_not.mp hdiff⟩, ht, ha⟩
    · simp only [Bool.not_eq_true] at hbt
      subst hbt
      exact Or.inl (pure_ok.mp h).symm

theorem relayBlocks_ok : ∀ {blocks : List Block} (st : Node.RelayState) {st' : Node.RelayState},
    Replay K st.chain st.utxos st.totalIssued → blocks.foldlM (Node.relayBlock K) st = .ok st' →
    Replay K st'.chain st'.utxos st'.totalIssued ∧ ∃ more, st'.chain = st.chain ++ more ∧ more.Sublist blocks
  | [], st, st', hr, h => by
    rw [List.foldlM_nil, pure_ok] at h
    subst h
    exact ⟨hr, [], by simp, List.Sublist.slnil⟩
  | block :: blocks, st, st', hr, h => by
    rw [List.foldlM_cons] at h
    obtain ⟨next, hn, hrest⟩ := bind_ok.mp h
    rcases relayBlock_ok hn with rfl | ⟨hc, ha⟩
    · obtain ⟨hr', more, hm, hsub⟩ := relayBlocks_ok _ hr hrest
      exact ⟨hr', more, hm, hsub.cons block⟩
    · have hnext : Replay K next.chain next.utxos next.totalIssued := hc ▸ .snoc hr ha
      obtain ⟨hr', more, hm, hsub⟩ := relayBlocks_ok _ hnext hrest
      exact ⟨hr', block :: more, by rw [hm, hc]; simp, hsub.cons_cons block⟩

/-! ## Steps -/

theorem prepare_ok {current candidate : List Block} {plan : ChainReplacementPlan}
    (h : prepareChainReplacement K current candidate = .ok (some plan)) {u : UTXOSet} {t : UInt64}
    (hcur : Replay K current u t) : plan.chain = candidate ∧ (∃ u' t', Replay K candidate u' t') ∧
      candidate.head?.map (Block.hash K) = current.head?.map (Block.hash K) ∧ work current < work candidate := by
  unfold prepareChainReplacement at h
  cases hc : candidate.head? with
  | none => simp [hc] at h
  | some genesis =>
    simp only [hc] at h
    split at h
    · simp at h
    · rename_i hsame
      obtain ⟨valid, hv, hplan⟩ := bind_ok.mp h
      obtain ⟨hvt, hplan⟩ := ite_not_none.mp hplan
      rw [if_neg (by simp [hcur.ne_nil])] at hplan
      obtain ⟨more, hm, hplan⟩ := bind_ok.mp hplan
      obtain ⟨hmt, hplan⟩ := ite_not_none.mp hplan
      obtain ⟨utxo, -, hplan⟩ := bind_ok.mp hplan
      simp only [pure_ok, Option.some.injEq] at hplan
      obtain ⟨u', t', hr⟩ := candidate_iff.mp (hvt ▸ hv)
      rw [hasMoreWork_eq hr hcur, hmt, Except.ok.injEq, decide_eq_true_iff] at hm
      refine ⟨by rw [← hplan], ⟨u', t', hr⟩, ?_, hm⟩
      cases hh : current.head? with
      | none => exact absurd (List.head?_eq_none_iff.mp hh) hcur.ne_nil
      | some first =>
        simp only [hh, Option.map_some, Option.any_some, decide_not, Bool.not_eq_true', decide_eq_false_iff_not,
          not_not] at hsame
        simp [hsame]

/-- `after` is `node` with `block` appended to its chain and its pool emptied. -/
def Mines (node : Node K) (block : Block) (after : Node K) : Prop :=
  ∃ chain u t u' t', node.storage.load K = .ok chain ∧ Replay K chain u t ∧ Appends K chain u t block u' t' ∧
    after = { node with storage := some (chain ++ [block]), mempool := Mempool.empty K }

/-- Everything that a call can do. -/
inductive Step (node : Node K) : Call K → Node K → Prop
  | stay {call} : Step node call node
  | accept {tx chain u t reason pool} : node.storage.load K = .ok chain → Replay K chain u t →
    isCoinbaseTransaction tx = false → node.mempool.accept tx u = .ok (reason, pool) →
    Step node (.acceptTransaction tx) { node with mempool := pool }
  | mine {call candidate after} : call = .commitMined candidate ∨ call = .submitPoolSolution candidate →
    Mines node candidate after → Step node call after
  | replace {walk candidate chain u t} : node.storage.load K = .ok chain → Replay K candidate u t →
    candidate.head?.map (Block.hash K) = chain.head?.map (Block.hash K) → work chain < work candidate →
    Step node (.replaceChain walk candidate)
      { node with
        storage := some candidate, mempool := (revalidateMempoolAfterReorg K walk node.mempool candidate).2 }
  | relay {payload blocks chain more u t} : node.storage.load K = .ok chain →
    readAll Node.readRelayedBlocks "trailing bytes in relayed blocks payload" payload = .ok blocks →
    more.Sublist blocks → more ≠ [] → Replay K (chain ++ more) u t →
    Step node (.handleBlocks payload) { node with storage := some (chain ++ more) }

theorem commit_cases {α : Type} {node : Node K} {call : Result (α × Node K)} {P : Node K → Prop} (hstay : P node)
    (h : ∀ a after, call = .ok (a, after) → P after) : P (node.commit call).2 := by
  unfold Node.commit
  cases call with
  | error e => exact hstay
  | ok r => exact h r.1 r.2 rfl

theorem commit_ok {α : Type} {node after : Node K} {call : Result (α × Node K)} {a : α} :
    node.commit call = (.ok a, after) ↔ call = .ok (a, after) := by
  unfold Node.commit
  cases call with
  | error e => simp
  | ok r => simp [Prod.ext_iff]

theorem commit_throws {α : Type} {node : Node K} {call : Result (α × Node K)} {e : Error}
    (h : (node.commit call).1 = .error e) : (node.commit call).2 = node := by
  unfold Node.commit at h ⊢
  cases call with
  | error e' => rfl
  | ok r => cases h

theorem appendBlock_ok {node after : Node K} {candidate : Block} {chain : List Block}
    (hload : node.storage.load K = .ok chain) (h : node.appendBlock candidate = .ok after) :
    after = { node with storage := some (chain ++ [candidate]), mempool := Mempool.empty K } := by
  obtain ⟨storage, hs, h⟩ := bind_ok.mp h
  rw [← pure_ok.mp h, (save_ok.mp (append_ok hload hs)).1]

theorem appendBlock_stored {node after : Node K} {candidate : Block} {chain : List Block}
    (hload : node.storage.load K = .ok chain) (h : node.appendBlock candidate = .ok after) :
    candidate.Fits uint32Max ∧ candidate.bytes.length ≤ maxBlockBytes := by
  obtain ⟨storage, hs, -⟩ := bind_ok.mp h
  exact (save_ok.mp (append_ok hload hs)).2.2 candidate (by simp)

/-- What a submitted transaction meets before the pool, and the answer of the pool. -/
theorem acceptTransaction_ok {node after : Node K} {tx : Transaction} {reason : MempoolRejectReason}
    (h : node.acceptTransaction tx = (.ok reason, after)) : ∃ chain u t, node.storage.load K = .ok chain ∧
      Replay K chain u t ∧ (reason = .invalidTransaction ∧ after = node ∨ isCoinbaseTransaction tx = false ∧
        ∃ pool, node.mempool.accept tx u = .ok (reason, pool) ∧ after = { node with mempool := pool }) := by
  obtain ⟨-, h⟩ := ite_not_fail.mp (commit_ok.mp h)
  obtain ⟨chain, hload, h⟩ := bind_ok.mp h
  obtain ⟨-, h⟩ := ite_error_ok.mp h
  obtain ⟨u, hu, h⟩ := bind_ok.mp h
  obtain ⟨t, hr⟩ := rebuildUtxoSet_ok.mp hu
  refine ⟨chain, u, t, hload, hr, ?_⟩
  split at h
  · simp only [pure_ok, Prod.mk.injEq] at h
    exact Or.inl ⟨h.1.symm, h.2.symm⟩
  · rename_i hc
    obtain ⟨⟨reason', pool⟩, hacc, h⟩ := bind_ok.mp h
    simp only [pure_ok, Prod.mk.injEq] at h
    obtain ⟨rfl, rfl⟩ := h
    exact Or.inr ⟨by simpa using hc, pool, hacc, rfl⟩

theorem acceptTransaction_step (node : Node K) (tx : Transaction) :
    Step node (.acceptTransaction tx) (node.acceptTransaction tx).2 := by
  refine commit_cases .stay fun a after h => ?_
  obtain ⟨chain, u, t, hload, hr, ⟨-, rfl⟩ | ⟨hc, pool, hacc, rfl⟩⟩ := acceptTransaction_ok (commit_ok.mpr h)
  · exact .stay
  · exact .accept hload hr hc hacc

theorem mines_of_consensus {node after : Node K} {candidate : Block} {chain : List Block} {u : UTXOSet}
    (hload : node.storage.load K = .ok chain) (hu : rebuildUtxoSet K chain = .ok u)
    (hv : validateBlockConsensus K candidate chain u = .ok true) (h : node.appendBlock candidate = .ok after) :
    Mines node candidate after := by
  obtain ⟨t, hr⟩ := rebuildUtxoSet_ok.mp hu
  obtain ⟨u', t', ha⟩ := (consensus_iff_appends hr).mp hv
  exact ⟨chain, u, t, u', t', hload, hr, ha, appendBlock_ok hload h⟩

/-- A mined block is committed after the same checks and by the same call as a submitted one. -/
theorem commitMined_cases {node after : Node K} {candidate : Block}
    (h : node.commitMined candidate = (.ok (), after)) : ∃ chain u, node.storage.load K = .ok chain ∧
      rebuildUtxoSet K chain = .ok u ∧ validateBlockConsensus K candidate chain u = .ok true ∧
        node.appendBlock candidate = .ok after := by
  obtain ⟨chain, hload, h⟩ := bind_ok.mp (commit_ok.mp h)
  cases hlast : chain.getLast? with
  | none => simp [hlast] at h
  | some previous =>
    simp only [hlast] at h
    obtain ⟨-, h⟩ := ite_error_ok.mp h
    obtain ⟨u, hu, h⟩ := bind_ok.mp h
    obtain ⟨valid, hv, h⟩ := bind_ok.mp h
    obtain ⟨hvt, h⟩ := ite_not_fail.mp h
    obtain ⟨next, hn, h⟩ := bind_ok.mp h
    simp only [pure_ok, Prod.mk.injEq, true_and] at h
    exact ⟨chain, u, hload, hu, hvt ▸ hv, h ▸ hn⟩

theorem commitMined_ok {node after : Node K} {candidate : Block}
    (h : node.commitMined candidate = (.ok (), after)) : Mines node candidate after := by
  obtain ⟨chain, u, hload, hu, hv, hn⟩ := commitMined_cases h
  exact mines_of_consensus hload hu hv hn

/-- A submitted solution is turned down, or passes the checks and is appended. -/
theorem submitPoolSolution_cases {node after : Node K} {candidate : Block} {accepted : Bool}
    (h : node.submitPoolSolution candidate = (.ok accepted, after)) : accepted = false ∧ after = node ∨
      accepted = true ∧ ∃ chain u, node.storage.load K = .ok chain ∧ rebuildUtxoSet K chain = .ok u ∧
        validateBlockConsensus K candidate chain u = .ok true ∧ node.appendBlock candidate = .ok after := by
  obtain ⟨-, h⟩ := ite_not_fail.mp (commit_ok.mp h)
  obtain ⟨chain, hload, h⟩ := bind_ok.mp h
  have hstay : (pure (false, node) : Result (Bool × Node K)) = .ok (accepted, after) →
      accepted = false ∧ after = node := by
    intro hx
    simp only [pure_ok, Prod.mk.injEq] at hx
    exact ⟨hx.1.symm, hx.2.symm⟩
  cases hlast : chain.getLast? with
  | none => simp [hlast] at h
  | some previous =>
    simp only [hlast] at h
    split at h
    · exact Or.inl (hstay h)
    · split at h
      · exact Or.inl (hstay h)
      · split at h
        · exact Or.inl (hstay h)
        · obtain ⟨u, hu, h⟩ := bind_ok.mp h
          obtain ⟨valid, hv, h⟩ := bind_ok.mp h
          cases valid with
          | false => exact Or.inl (hstay h)
          | true =>
            obtain ⟨next, hn, h⟩ := bind_ok.mp h
            simp only [pure_ok, Prod.mk.injEq] at h
            exact Or.inr ⟨h.1.symm, chain, u, hload, hu, hv, h.2 ▸ hn⟩

theorem submitPoolSolution_ok {node after : Node K} {candidate : Block} {accepted : Bool}
    (h : node.submitPoolSolution candidate = (.ok accepted, after)) :
    accepted = false ∧ after = node ∨ accepted = true ∧ Mines node candidate after := by
  rcases submitPoolSolution_cases h with hstay | ⟨htrue, chain, u, hload, hu, hv, hn⟩
  · exact Or.inl hstay
  · exact Or.inr ⟨htrue, mines_of_consensus hload hu hv hn⟩

theorem commitMined_step (node : Node K) (candidate : Block) :
    Step node (.commitMined candidate) (node.commitMined candidate).2 :=
  commit_cases .stay fun _ _ h => .mine (Or.inl rfl) (commitMined_ok (commit_ok.mpr h))

theorem submitPoolSolution_step (node : Node K) (candidate : Block) :
    Step node (.submitPoolSolution candidate) (node.submitPoolSolution candidate).2 := by
  refine commit_cases .stay fun a after h => ?_
  rcases submitPoolSolution_ok (commit_ok.mpr h) with ⟨-, rfl⟩ | ⟨-, hm⟩
  · exact .stay
  · exact .mine (Or.inr rfl) hm

theorem replaceChain_step (node : Node K) (walk : Walk K) (candidate : List Block) :
    Step node (.replaceChain walk candidate) (node.replaceChain walk candidate).2 := by
  unfold Node.replaceChain
  dsimp only
  split
  · exact .stay
  · exact .stay
  · rename_i chain storage h
    obtain ⟨-, h⟩ := ite_not_fail.mp h
    obtain ⟨current, hload, h⟩ := bind_ok.mp h
    obtain ⟨plan, hp, h⟩ := ifSome_ok.mp h
    obtain ⟨saved, hs, h⟩ := bind_ok.mp h
    simp only [pure_ok, Option.some.injEq, Prod.mk.injEq] at h
    obtain ⟨rfl, rfl⟩ := h
    obtain ⟨u, t, hcur⟩ := (load_ok.mp hload).2.replay
    obtain ⟨hplan, ⟨u', t', hr⟩, hhash, hwork⟩ := prepare_ok hp hcur
    rw [(save_ok.mp hs).1, hplan]
    exact .replace hload hr hhash hwork

theorem handleBlocks_step (node : Node K) (payload : Bytes) :
    Step node (.handleBlocks payload) (node.handleBlocks payload).2 := by
  refine commit_cases .stay fun a after h => ?_
  obtain ⟨blocks, hblocks, h⟩ := bind_ok.mp h
  obtain ⟨-, h⟩ := ite_error_ok.mp h
  obtain ⟨chain, hload, h⟩ := bind_ok.mp h
  obtain ⟨-, h⟩ := ite_error_ok.mp h
  obtain ⟨u, hu, h⟩ := bind_ok.mp h
  obtain ⟨t, hr⟩ := rebuildUtxoSet_ok.mp hu
  simp only [hr.chainIssuance] at h
  obtain ⟨st, hst, h⟩ := bind_ok.mp h
  obtain ⟨hr', more, hmore, hsub⟩ := relayBlocks_ok ⟨chain, u, t⟩ hr hst
  simp only at hmore
  split at h
  · simp only [pure_ok, Prod.mk.injEq] at h
    exact h.2 ▸ .stay
  · rename_i hlen
    obtain ⟨saved, hs, h⟩ := bind_ok.mp h
    simp only [pure_ok, Prod.mk.injEq] at h
    rw [← h.2, (save_ok.mp hs).1, hmore]
    refine .relay hload hblocks hsub ?_ (hmore ▸ hr')
    intro hnil
    rw [hmore, hnil] at hlen
    simp at hlen

theorem mineOneBlock_call (node : Node K) (recipient : Bytes) (maxAttempts now : UInt64) :
    (node.mineOneBlock recipient maxAttempts now).2 = node ∨
      ∃ candidate, node.mineCandidate recipient maxAttempts now = .ok candidate ∧
        (node.mineOneBlock recipient maxAttempts now).2 = node.call (.commitMined candidate) := by
  unfold Node.mineOneBlock
  cases hc : node.mineCandidate recipient maxAttempts now with
  | error e => exact Or.inl rfl
  | ok candidate => exact Or.inr ⟨candidate, rfl, rfl⟩

theorem call_step (node : Node K) (call : Call K) : Step node call (node.call call) := by
  cases call with
  | acceptTransaction tx => exact acceptTransaction_step node tx
  | commitMined candidate => exact commitMined_step node candidate
  | submitPoolSolution candidate => exact submitPoolSolution_step node candidate
  | replaceChain walk candidate => exact replaceChain_step node walk candidate
  | handleBlocks payload => exact handleBlocks_step node payload

end

end Caesar
