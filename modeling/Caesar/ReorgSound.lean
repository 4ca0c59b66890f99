import Caesar.MempoolSound
import Caesar.NodeSound

/-!
# Replacing the chain never throws

What is in the pool can be serialized, and serializing is all that can fail
while transactions are admitted again. So a node that runs replaces its chain by
any valid chain with more work that fits its storage (`replaceChain_more`), and
declines any other valid chain (`replaceChain_less`).
-/

namespace Caesar

open Codec

section
variable {K : Crypto} {u : UTXOSet}

/-! ## Validation returns -/

theorem verifyInputs_returns {tx : Transaction} (hf : tx.BaseFits uint32Max) :
    ∀ (i : Nat) (items : List (TransactionInput × PKey × Bytes × Bytes)), ∃ b, verifyInputs K tx u i items = .ok b
  | _, [] => ⟨true, rfl⟩
  | i, (input, key, data, signature) :: rest => by
    obtain ⟨valid, hv⟩ : ∃ valid, verifyTransactionInputSignature K tx i key signature = .ok valid := by
      unfold verifyTransactionInputSignature
      split
      · exact ⟨false, rfl⟩
      · rename_i hi
        exact ⟨_, bind_ok.mpr ⟨_, signingMessage_ok.mpr ⟨Nat.not_le.mp hi, hf, rfl⟩, rfl⟩⟩
    unfold verifyInputs
    split
    · exact ⟨false, rfl⟩
    · split
      · exact ⟨false, rfl⟩
      · rw [hv]
        cases valid with
        | false => exact ⟨false, rfl⟩
        | true => exact verifyInputs_returns hf (i + 1) rest

theorem validateTransactionWitness_returns {tx : Transaction} (hf : tx.BaseFits uint32Max) :
    ∃ b, validateTransactionWitness K tx u = .ok b := by
  unfold validateTransactionWitness validateSignedTransactionOwnership
  repeat' split
  all_goals first
    | exact ⟨false, rfl⟩
    | exact verifyInputs_returns hf _ _

/-! ## Admission returns -/

theorem spendAndAdd_returns {tx : Transaction} (hf : tx.BaseFits uint32Max) : ∃ w, spendAndAdd K tx u = .ok w := by
  unfold spendAndAdd
  split
  · exact ⟨none, rfl⟩
  · rw [(txid_ok K tx _).mpr ⟨hf, rfl⟩]
    exact ⟨_, rfl⟩

theorem orderPass_returns : ∀ {l : List (Hash256 × Transaction)} {st : OrderState} (progressed : Bool),
    (∀ p ∈ l, p.2.BaseFits uint32Max) → (∀ tx ∈ st.ordered, tx.BaseFits uint32Max) →
    ∃ r, orderPass K l st progressed = .ok r ∧
      ∀ st' progressed', r = some (st', progressed') → ∀ tx ∈ st'.ordered, tx.BaseFits uint32Max
  | [], st, progressed, _, hst => by
    refine ⟨_, rfl, fun st' progressed' he => ?_⟩
    rw [Option.some.injEq, Prod.mk.injEq] at he
    exact he.1 ▸ hst
  | (id, tx) :: l, st, progressed, hl, hst => by
    rw [List.forall_mem_cons] at hl
    unfold orderPass
    split
    · exact orderPass_returns _ hl.2 hst
    · split
      · exact orderPass_returns _ hl.2 hst
      · obtain ⟨w, hw⟩ := spendAndAdd_returns (K := K) (u := st.working) hl.1
        rw [hw]
        cases w with
        | none => exact ⟨none, rfl, by simp⟩
        | some working =>
          refine orderPass_returns _ hl.2 fun t ht => ?_
          rcases List.mem_append.mp ht with ht | ht
          · exact hst t ht
          · exact List.mem_singleton.mp ht ▸ hl.1

theorem orderLoop_returns {pending : List (Hash256 × Transaction)} (hl : ∀ p ∈ pending, p.2.BaseFits uint32Max) :
    ∀ (passes : Nat) {st : OrderState}, (∀ tx ∈ st.ordered, tx.BaseFits uint32Max) →
      ∃ ordered, orderLoop K pending passes st = .ok ordered ∧ ∀ tx ∈ ordered, tx.BaseFits uint32Max
  | 0, st, hst => by
    refine ⟨_, rfl, ?_⟩
    split
    · exact hst
    · simp
  | passes + 1, st, hst => by
    unfold orderLoop
    split
    · exact ⟨_, rfl, hst⟩
    · obtain ⟨r, hr, hnext⟩ := orderPass_returns (K := K) false hl hst
      rw [hr]
      rcases r with _ | ⟨st', progressed'⟩
      · exact ⟨[], rfl, by simp⟩
      · cases progressed' with
        | false => exact ⟨[], rfl, by simp⟩
        | true => exact orderLoop_returns hl passes (hnext st' true rfl)

theorem applyOrdered_returns : ∀ {txs : List Transaction} {u : UTXOSet}, (∀ tx ∈ txs, tx.BaseFits uint32Max) →
    ∃ w, applyOrdered K txs u = .ok w
  | [], u, _ => ⟨some u, rfl⟩
  | tx :: txs, u, hall => by
    rw [List.forall_mem_cons] at hall
    obtain ⟨w, hw⟩ := spendAndAdd_returns (K := K) (u := u) hall.1
    rw [applyOrdered, hw]
    cases w with
    | none => exact ⟨none, rfl⟩
    | some w => exact applyOrdered_returns hall.2

theorem buildEffectiveUtxo_returns (pool : Mempool K) : ∃ w, pool.buildEffectiveUtxo u = .ok w := by
  have hpending : ∀ p ∈ pool.pending, p.2.BaseFits uint32Max := fun p hp =>
    (snapshot_fits ((pending_snapshot pool).subset (List.mem_map_of_mem hp))).toBaseFits
  have hnone : ∀ tx ∈ (⟨u, [], (pool.pending.map Prod.fst).toFinset⟩ : OrderState).ordered, tx.BaseFits uint32Max := by
    simp
  obtain ⟨ordered, ho, hall⟩ := orderLoop_returns (K := K) hpending pool.pending.length hnone
  have ho : pool.orderedTransactions u = .ok ordered := ho
  rw [Mempool.buildEffectiveUtxo, ho]
  show ∃ w, (if ordered.length ≠ pool.size then pure none else applyOrdered K ordered u) = .ok w
  split
  · exact ⟨none, rfl⟩
  · exact applyOrdered_returns hall

theorem validateAdmission_returns (pool : Mempool K) {tx : Transaction} (hf : tx.BaseFits uint32Max) :
    ∃ reason, pool.validateAdmission tx u = .ok reason := by
  unfold Mempool.validateAdmission
  split
  · exact ⟨_, rfl⟩
  · obtain ⟨w, hw⟩ := buildEffectiveUtxo_returns (u := u) pool
    rw [hw]
    cases w with
    | none => exact ⟨_, rfl⟩
    | some w =>
      obtain ⟨valid, hv⟩ := validateTransactionWitness_returns (K := K) (u := w) hf
      show ∃ reason, (if validateForMempool tx w ≠ .none then pure (validateForMempool tx w) else do
        let valid ← validateTransactionWitness K tx w
        pure (if !valid then .invalidTransaction else .none)) = .ok reason
      split
      · exact ⟨_, rfl⟩
      · rw [hv]
        exact ⟨_, rfl⟩

theorem accept_returns (pool : Mempool K) {tx : Transaction} (hf : tx.Fits uint32Max) :
    ∃ r, pool.accept tx u = .ok r := by
  unfold Mempool.accept
  split
  · rename_i e he
    rw [(txid_ok K tx _).mpr ⟨hf.toBaseFits, rfl⟩] at he
    cases he
  · split
    · exact ⟨_, rfl⟩
    · split
      · exact ⟨_, rfl⟩
      · split
        · rename_i e he
          rw [serializeFullBinary_ok.mpr ⟨hf, rfl⟩] at he
          cases he
        · split
          · exact ⟨_, rfl⟩
          · split
            · exact ⟨_, rfl⟩
            · obtain ⟨reason, hr⟩ := validateAdmission_returns (u := u) pool hf.toBaseFits
              rw [hr]
              exact ⟨_, rfl⟩

/-! ## Revalidation returns -/

theorem revalidatePass_returns : ∀ {l : List Transaction} (pool : Mempool K) (pending : Finset Hash256)
    (progress : Bool), (∀ tx ∈ l, tx.Fits uint32Max) → ∃ r, (revalidatePass K u l pool pending progress).1 = .ok r
  | [], _, _, _, _ => ⟨_, rfl⟩
  | tx :: l, pool, pending, progress, hl => by
    rw [List.forall_mem_cons] at hl
    unfold revalidatePass
    rw [(txid_ok K tx _).mpr ⟨hl.1.toBaseFits, rfl⟩]
    dsimp only
    split
    · exact revalidatePass_returns _ _ _ hl.2
    · split
      · exact revalidatePass_returns _ _ _ hl.2
      · obtain ⟨r, hr⟩ := accept_returns (u := u) pool hl.1
        rw [hr]
        exact revalidatePass_returns _ _ _ hl.2

theorem revalidateLoop_returns {l : List Transaction} (hl : ∀ tx ∈ l, tx.Fits uint32Max) :
    ∀ (passes : Nat) (pool : Mempool K) (pending : Finset Hash256), (revalidateLoop K u l passes pool pending).1 = .ok ()
  | 0, _, _ => rfl
  | passes + 1, pool, pending => by
    unfold revalidateLoop
    split
    · rfl
    · obtain ⟨r, hr⟩ := revalidatePass_returns (u := u) pool pending false hl
      split
      · rename_i he
        rw [he] at hr
        cases hr
      · split
        · rfl
        · exact revalidateLoop_returns hl passes _ _

theorem revalidate_returns {chain : List Block} {t : UInt64} (hr : Replay K chain u t) (walk : Walk K)
    (pool : Mempool K) : (revalidateMempoolAfterReorg K walk pool chain).1 = .ok () := by
  have hfits : ∀ tx ∈ walk.order pool, tx.Fits uint32Max := fun tx htx => snapshot_fits ((walk.perm pool).subset htx)
  have hids : (walk.order pool).mapM (Transaction.txid K) = .ok ((walk.order pool).map (Transaction.id K)) :=
    (mapM_ok (txid_ok K)).mpr ⟨fun tx htx => (hfits tx htx).toBaseFits, rfl⟩
  unfold revalidateMempoolAfterReorg
  dsimp only
  simp only [rebuildUtxoSet_ok.mpr ⟨t, hr⟩, hids]
  split
  · rfl
  · split
    · rfl
    · exact revalidateLoop_returns hfits _ _ _

/-! ## Replacement -/

theorem prepare_eq {current candidate : List Block} {u' : UTXOSet} {t t' : UInt64} (hcur : Replay K current u t)
    (hcand : Replay K candidate u' t')
    (hhead : candidate.head?.map (Block.hash K) = current.head?.map (Block.hash K)) :
    prepareChainReplacement K current candidate =
      .ok (if work current < work candidate then some ⟨candidate, u'⟩ else none) := by
  unfold prepareChainReplacement
  cases hc : candidate.head? with
  | none => exact absurd (List.head?_eq_none_iff.mp hc) hcand.ne_nil
  | some genesis =>
    have hsame : (current.head?.map fun block => block.hash K).any (· ≠ genesis.hash K) = false := by
      rw [hc] at hhead
      simp [← hhead]
    simp only [hsame, candidate_iff.mpr ⟨u', t', hcand⟩, rebuildUtxoSet_ok.mpr ⟨t', hcand⟩, hasMoreWork_eq hcand hcur]
    by_cases hw : work current < work candidate <;>
      simp [hw, hcur.ne_nil, bind, Except.bind, pure, Except.pure]

variable {node : Node K} {current candidate : List Block}

theorem replaceChain_more (hrun : node.running = true) (hload : node.storage.load K = .ok current)
    (hcand : Loadable K candidate)
    (hhead : candidate.head?.map (Block.hash K) = current.head?.map (Block.hash K))
    (hw : work current < work candidate) (walk : Walk K) : node.replaceChain walk candidate =
      (.ok true, { node with
        storage := some candidate, mempool := (revalidateMempoolAfterReorg K walk node.mempool candidate).2 }) := by
  obtain ⟨u, t, hcur⟩ := (load_ok.mp hload).2.replay
  obtain ⟨u', t', hr⟩ := hcand.replay
  have hsave : BlockchainStorage.replace K candidate = .ok (some candidate) :=
    save_ok.mpr ⟨rfl, hcand.valid, fun b hb => ⟨(hcand.stored b hb).1.mono decodeLimit_le, (hcand.stored b hb).2⟩⟩
  have hplan := prepare_eq hcur hr hhead
  rw [if_pos hw] at hplan
  simp [Node.replaceChain, hrun, hload, hplan, hsave, ifSome, bind, Except.bind, pure, Except.pure, revalidate_returns hr,
    Except.map]

theorem replaceChain_less (hrun : node.running = true) (hload : node.storage.load K = .ok current)
    (hcand : Loadable K candidate)
    (hhead : candidate.head?.map (Block.hash K) = current.head?.map (Block.hash K))
    (hw : ¬ work current < work candidate) (walk : Walk K) : node.replaceChain walk candidate = (.ok false, node) := by
  obtain ⟨u, t, hcur⟩ := (load_ok.mp hload).2.replay
  obtain ⟨u', t', hr⟩ := hcand.replay
  have hplan := prepare_eq hcur hr hhead
  rw [if_neg hw] at hplan
  simp [Node.replaceChain, hrun, hload, hplan, ifSome, bind, Except.bind, pure, Except.pure]

end

end Caesar
