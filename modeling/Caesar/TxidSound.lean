import Caesar.CommitSound
import Caesar.LedgerSound

/-!
# When txids are unique

Nothing in the validator compares txids. A transaction that spends can only be
confirmed again after its inputs were created again, so repetition starts with
a coinbase: txids are unique exactly when no two coinbases have the same base
form.
-/

namespace Caesar

open Codec

section
variable {K : Crypto}

theorem Replay.ledger_shaped {chain : List Block} {u : UTXOSet} {t : UInt64} (h : Replay K chain u t) :
    ∀ tx ∈ ledger chain, tx.Fits uint32Max ∧ tx.Shaped := by
  induction h with
  | genesis hg => simp [ledger]
  | snoc hr ha ih =>
    rw [ledger_snoc hr.ne_nil]
    intro tx htx
    rcases List.mem_append.mp htx with htx | htx
    · exact ih tx htx
    · exact ⟨(validateRoots_true (basic_roots ha.basic)).1 tx htx,
        (basic_shaped ha.basic (applyBlock_height ha.applies)).2 tx htx⟩

def coinbases (chain : List Block) : List Transaction := (ledger chain).filter isCoinbaseTransaction

theorem entry_inputs_strip (tx : Transaction) : (tx.strip.entry K).inputs = (tx.entry K).inputs := rfl

section
variable {txs : List Transaction} (hcf : CollisionFree K (txs.map Transaction.bytes))
include hcf

theorem bytes_eq_of_id {tx tx' : Transaction} (h : tx ∈ txs) (h' : tx' ∈ txs) (he : tx.id K = tx'.id K) :
    tx.bytes = tx'.bytes :=
  hcf _ (List.mem_map_of_mem h) _ (List.mem_map_of_mem h') he

variable (hgood : ∀ tx ∈ txs, tx.Fits uint32Max ∧ tx.Shaped)
include hgood

theorem strip_eq_of_id {tx tx' : Transaction} (h : tx ∈ txs) (h' : tx' ∈ txs) (he : tx.id K = tx'.id K) :
    tx.strip = tx'.strip :=
  bytes_inj (hgood tx h).1.toBaseFits (hgood tx' h').1.toBaseFits (bytes_eq_of_id hcf h h' he)

theorem entry_inputs_eq_of_id {tx tx' : Transaction} (h : tx ∈ txs) (h' : tx' ∈ txs) (he : tx.id K = tx'.id K) :
    (tx.entry K).inputs = (tx'.entry K).inputs := by
  rw [← entry_inputs_strip tx, strip_eq_of_id hcf hgood h h' he, entry_inputs_strip]

end

theorem entry_rootless {tx : Transaction} (h : tx.Shaped) :
    ((tx.entry K).inputs.isEmpty = true ↔ isCoinbaseTransaction tx = true) := by
  by_cases hc : isCoinbaseTransaction tx = true
  · simp [Transaction.entry, hc]
  · have hin := h.1
    simp [Transaction.entry, hc, Transaction.points, hin]

theorem entry_keys_nodup {tx : Transaction} (h : tx.BaseFits uint32Max) : (tx.entry K).keys.Nodup :=
  outputsAt_nodup (by have := h.outputs; unfold uint32Max at this; omega)

theorem filter_rootless : ∀ {txs : List Transaction}, (∀ tx ∈ txs, tx.Shaped) →
    ((txs.map (Transaction.entry K)).filter fun e => e.inputs.isEmpty) =
      (txs.filter isCoinbaseTransaction).map (Transaction.entry K) := by
  intro txs h
  rw [List.filter_map]
  congr 1
  apply List.filter_congr
  intro tx htx
  have := entry_rootless (K := K) (h tx htx)
  rw [Function.comp_apply, Bool.eq_iff_iff]
  exact this

theorem map_id_entry (txs : List Transaction) :
    (txs.map (Transaction.entry K)).map Coins.Entry.id = txs.map (Transaction.id K) := by
  rw [List.map_map]; rfl

theorem Replay.ids_nodup {chain : List Block} {u : UTXOSet} {t : UInt64} (h : Replay K chain u t)
    (hcf : CollisionFree K ((ledger chain).map Transaction.bytes))
    (hcoin : ((coinbases chain).map Transaction.bytes).Nodup) :
    ((ledger chain).map (Transaction.id K)).Nodup ∧
      ((ledger chain).flatMap fun tx => (tx.creates K).map Prod.fst).Nodup := by
  have hgood := h.ledger_shaped
  have howner : ∀ e ∈ (ledger chain).map (Transaction.entry K), ∀ k ∈ e.keys, k.txid = e.id := by
    intro e he k hk
    obtain ⟨tx, -, rfl⟩ := List.mem_map.mp he
    exact entry_txid hk
  have hkeys : ∀ e ∈ (ledger chain).map (Transaction.entry K), e.keys.Nodup := by
    intro e he
    obtain ⟨tx, htx, rfl⟩ := List.mem_map.mp he
    exact entry_keys_nodup (hgood tx htx).1.toBaseFits
  have hinputs : ∀ e ∈ (ledger chain).map (Transaction.entry K), ∀ f ∈ (ledger chain).map (Transaction.entry K),
      e.id = f.id → e.inputs = f.inputs := by
    intro e he f hf hef
    obtain ⟨tx, htx, rfl⟩ := List.mem_map.mp he
    obtain ⟨tx', htx', rfl⟩ := List.mem_map.mp hf
    exact entry_inputs_eq_of_id hcf hgood htx htx' hef
  have hroots : (((((ledger chain).map (Transaction.entry K)).filter fun e => e.inputs.isEmpty)).map
      Coins.Entry.id).Nodup := by
    rw [filter_rootless fun tx htx => (hgood tx htx).2, map_id_entry]
    refine (List.nodup_map_iff_inj_on (List.Nodup.of_map _ hcoin)).mpr fun tx htx tx' htx' he => ?_
    have hbytes := bytes_eq_of_id hcf (List.mem_of_mem_filter htx) (List.mem_of_mem_filter htx') he
    exact List.inj_on_of_nodup_map hcoin htx htx' hbytes
  have hids := Coins.ids_nodup OutPoint.txid h.coins howner hkeys hinputs hroots
  refine ⟨by rwa [map_id_entry] at hids, ?_⟩
  rw [List.nodup_iff_count_le_one]
  intro p
  have := Coins.count_created_le_one OutPoint.txid howner hkeys hids p
  rwa [created_ledger, List.map_flatMap] at this

theorem txid_eq_id {tx : Transaction} (h : tx.Fits uint32Max) : tx.txid K = .ok (tx.id K) :=
  (txid_ok K _ _).mpr ⟨h.toBaseFits, rfl⟩

/-- In an accepted chain the txids are distinct, and every outpoint is created once, exactly when the coinbases
have distinct base forms. -/
theorem txids_unique_iff {chain : List Block} (h : validateCandidateChain K chain = .ok true)
    (hcf : CollisionFree K ((ledger chain).map Transaction.bytes)) :
    (((ledger chain).map (Transaction.txid K)).Nodup ∧
        ((ledger chain).flatMap fun tx => (tx.creates K).map Prod.fst).Nodup) ↔
      ((coinbases chain).map Transaction.bytes).Nodup := by
  obtain ⟨u, t, hr⟩ := candidate_iff.mp h
  have htxid : (ledger chain).map (Transaction.txid K) = ((ledger chain).map (Transaction.id K)).map Except.ok := by
    rw [List.map_map]
    exact List.map_congr_left fun tx htx => txid_eq_id (hr.ledger_shaped tx htx).1
  rw [htxid]
  refine ⟨?_, ?_⟩
  · intro hx
    obtain ⟨hids, -⟩ := hx
    have hsub : ((coinbases chain).map (Transaction.id K)).Sublist ((ledger chain).map (Transaction.id K)) :=
      (List.filter_sublist ..).map _
    have hcb := (List.Nodup.of_map _ hids).sublist hsub
    exact List.Nodup.of_map K.sha256 (by rw [List.map_map]; exact hcb)
  · intro hcoin
    obtain ⟨hids, hpoints⟩ := hr.ids_nodup hcf hcoin
    refine ⟨hids.map ?_, hpoints⟩
    intro a b hab
    exact Except.ok.inj hab

end

theorem txids_unique_toy :
    (((ledger [toyGenesis, toyFirst, toySecond]).map (Transaction.txid toyCrypto)).Nodup ∧
      ((ledger [toyGenesis, toyFirst, toySecond]).flatMap fun tx => (tx.creates toyCrypto).map Prod.fst).Nodup) ↔
    ((coinbases [toyGenesis, toyFirst, toySecond]).map Transaction.bytes).Nodup :=
  txids_unique_iff toy_accepted (by unfold CollisionFree; decide +kernel)

/-! ## A coinbase that is paid twice -/

def spentCoinbase : Block := toyNext toyFirst [toyCoinbase 2, toySpend (toyCoinbase 1) 5]

def repeatedCoinbase : Block := toyNext spentCoinbase [toyCoinbase 1]

theorem coinbase_repeats : CollisionFree toyCrypto
      ((ledger [toyGenesis, toyFirst, spentCoinbase, repeatedCoinbase]).map Transaction.bytes) ∧
    validateCandidateChain toyCrypto [toyGenesis, toyFirst, spentCoinbase, repeatedCoinbase] = .ok true ∧
    ¬ ((ledger [toyGenesis, toyFirst, spentCoinbase, repeatedCoinbase]).map (Transaction.txid toyCrypto)).Nodup := by
  refine ⟨?_, ?_, ?_⟩
  · unfold CollisionFree; decide +kernel
  · decide +kernel
  · rw [List.Nodup, List.pairwise_iff_getElem]
    intro h
    exact h 0 3 (by decide) (by decide) (by decide) rfl

end Caesar
