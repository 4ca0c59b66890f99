import Caesar.RemovalSound
import Caesar.AdmissionSound

/-!
# Transactions that were admitted once

A pool outlives the chain its transactions were checked against. What keeps the
checks meaningful is that an outpoint names one output: txids hash the outputs,
so two UTXO sets of any valid chains, also after pools were applied to them, never
disagree about an outpoint (`Genuine.agree`). A transaction that was admitted is
then valid wherever its inputs are present (`Vetted.valid`).
-/

namespace Caesar

open Codec

section
variable {K : Crypto} {txs : List Transaction}

/-! ## Outpoints name outputs -/

/-- Every output of the set is one of a transaction of `txs`. -/
def Genuine (K : Crypto) (txs : List Transaction) (u : UTXOSet) : Prop :=
  ∀ k x, u.lookup k = some x → ∃ tx ∈ txs, tx.BaseFits uint32Max ∧ (k, x) ∈ (tx.entry K).outputs

theorem genuine_empty : Genuine K txs ∅ := by
  intro k x h
  rw [Finmap.lookup_empty] at h
  cases h

theorem Genuine.applyAll {u w : UTXOSet} (h : Genuine K txs u) {l : List Transaction}
    (hl : ∀ tx ∈ l, tx ∈ txs ∧ tx.BaseFits uint32Max)
    (hw : Coins.applyAll (l.map (Transaction.entry K)) u = some w) : Genuine K txs w := by
  intro k x hk
  have hlast := Coins.applyAll_lookup hw k x hk
  cases hc : Coins.lastValue k (Coins.created (l.map (Transaction.entry K))) with
  | none =>
    rw [hc, Option.none_or] at hlast
    exact h k x hlast
  | some y =>
    rw [hc, Option.some_or, Option.some.injEq] at hlast
    subst hlast
    obtain ⟨e, he, hke⟩ := List.mem_flatMap.mp (Coins.mem_of_lastValue hc)
    obtain ⟨tx, htx, rfl⟩ := List.mem_map.mp he
    exact ⟨tx, (hl tx htx).1, (hl tx htx).2, hke⟩

theorem Replay.genuine {chain : List Block} {u : UTXOSet} {t : UInt64} (hr : Replay K chain u t)
    (hledger : ∀ tx ∈ ledger chain, tx ∈ txs) : Genuine K txs u :=
  genuine_empty.applyAll (fun tx htx => ⟨hledger tx htx, (ledger_fits hr tx htx).toBaseFits⟩) hr.coins

theorem strip_eq {tx tx' : Transaction} (hcf : CollisionFree K (txs.map Transaction.bytes)) (h : tx ∈ txs)
    (h' : tx' ∈ txs) (hf : tx.BaseFits uint32Max) (hf' : tx'.BaseFits uint32Max) (he : tx.id K = tx'.id K) :
    tx.strip = tx'.strip :=
  bytes_inj hf hf' (bytes_eq_of_id hcf h h' he)

theorem outputs_strip (tx : Transaction) : tx.strip.outputs = tx.outputs := rfl

theorem Genuine.agree {u v : UTXOSet} (hcf : CollisionFree K (txs.map Transaction.bytes)) (hu : Genuine K txs u)
    (hv : Genuine K txs v) {k : OutPoint} {x y : TransactionOutput} (hx : u.lookup k = some x)
    (hy : v.lookup k = some y) : x = y := by
  obtain ⟨tx, htx, hf, hkx⟩ := hu k x hx
  obtain ⟨tx', htx', hf', hky⟩ := hv k y hy
  have hid : tx.id K = tx'.id K := by
    rw [← entry_txid (List.mem_map_of_mem hkx), ← entry_txid (List.mem_map_of_mem hky)]
  have houtputs : tx.outputs = tx'.outputs := by
    rw [← outputs_strip, strip_eq hcf htx htx' hf hf' hid, outputs_strip]
  have hsame : (tx.entry K).outputs = (tx'.entry K).outputs := by
    unfold Transaction.entry
    rw [hid, houtputs]
  rw [← hsame] at hky
  have hpair := List.inj_on_of_nodup_map (entry_keys_nodup hf) hkx hky rfl
  exact (Prod.mk.inj hpair).2

theorem Genuine.index_lt {u : UTXOSet} (h : Genuine K txs u) {k : OutPoint} (hk : k ∈ u) :
    k.outputIndex ≠ 0xffffffff := by
  obtain ⟨x, hx⟩ := Finmap.mem_iff.mp hk
  obtain ⟨tx, -, hf, hkx⟩ := h k x hx
  obtain ⟨p, hp, he⟩ := List.mem_map.mp hkx
  obtain ⟨-, hlt, -⟩ := List.mem_zipIdx (x := p.1) (i := p.2) hp
  have hlen := hf.outputs
  unfold uint32Max at hlen
  intro hmax
  rw [← (Prod.mk.inj he).1] at hmax
  have hidx := congrArg UInt32.toNat hmax
  rw [UInt32.toNat_ofNat', Nat.mod_eq_of_lt (by omega)] at hidx
  have hall : (0xffffffff : UInt32).toNat = 4294967295 := rfl
  omega

/-! ## The two checks of admission -/

theorem validateForMempool_of_witness {tx : Transaction} {u : UTXOSet}
    (h : validateTransactionWitness K tx u = .ok true) : validateForMempool tx u = .none :=
  (validateForMempool_iff tx u).mpr (authorized_of_validate h).validates

/-! ## Vetted pools -/

/-- The transaction was valid on some genuine set. -/
structure Vetted (K : Crypto) (txs : List Transaction) (tx : Transaction) : Prop where
  inPlay : tx ∈ txs
  fits : tx.Fits uint32Max
  admitted : ∃ u, Genuine K txs u ∧ validateTransactionWitness K tx u = .ok true

theorem Vetted.points_ne_nil {tx : Transaction} (h : Vetted K txs tx) : tx.points ≠ [] := by
  obtain ⟨u, -, hv⟩ := h.admitted
  have hinputs := (shaped_of_validate (authorized_of_validate hv).valid).1
  simpa [Transaction.points] using hinputs

theorem Vetted.plain {tx : Transaction} (h : Vetted K txs tx) : isCoinbaseTransaction tx = false := by
  obtain ⟨u, hu, hv⟩ := h.admitted
  have hpresent := (authorized_of_validate hv).present
  by_contra hc
  rw [Bool.not_eq_false, isCoinbaseTransaction] at hc
  cases hin : tx.inputs with
  | nil => simp [hin] at hc
  | cons input rest =>
    cases rest with
    | cons _ _ => simp [hin] at hc
    | nil =>
      simp only [hin] at hc
      by_cases hmark : input.outputIndex = 0xffffffff
      · have hk : input.point ∈ tx.points := by simp [Transaction.points, hin]
        exact hu.index_lt (hpresent _ hk) hmark
      · simp [hmark] at hc

theorem Vetted.valid {tx : Transaction} {v : UTXOSet} (h : Vetted K txs tx)
    (hcf : CollisionFree K (txs.map Transaction.bytes)) (hv : Genuine K txs v) (hin : ∀ k ∈ tx.points, k ∈ v) :
    validateTransactionWitness K tx v = .ok true := by
  obtain ⟨u, hu, hvalid⟩ := h.admitted
  refine validateTransactionWitness_shares ?_ hvalid
  intro k hk x hx
  obtain ⟨y, hy⟩ := Finmap.mem_iff.mp (hin k hk)
  rw [hy, hu.agree hcf hv hx hy]

/-- Calls whose UTXO sets are those of valid chains; `txs` has every transaction of the chains and the calls. -/
def PoolCall.Grounded (txs : List Transaction) : PoolCall K → Prop
  | .accept tx u => tx ∈ txs ∧ ∃ chain, rebuildUtxoSet K chain = .ok u ∧ ∀ p ∈ ledger chain, p ∈ txs
  | .remove _ _ => True
  | .clear => True

theorem vetted_accept {pool after : Mempool K} {tx : Transaction} {u : UTXOSet} {reason : MempoolRejectReason}
    (h : ∀ p ∈ pool.snapshot, Vetted K txs p) (htx : tx ∈ txs) (hu : Genuine K txs u)
    (hacc : pool.accept tx u = .ok (reason, after)) : ∀ p ∈ after.snapshot, Vetted K txs p := by
  rcases accept_ok hacc with ⟨-, rfl⟩ | ⟨-, hsnap, -, -, hfits, -, w, heff, hwit⟩
  · exact h
  · obtain ⟨ordered, -, hperm, hw⟩ := buildEffectiveUtxo_cases (fun p hp => (h p hp).plain) heff
    have hgenuine : Genuine K txs w :=
      hu.applyAll (fun p hp => ⟨(h p (hperm.subset hp)).inPlay, (h p (hperm.subset hp)).fits.toBaseFits⟩) hw
    rw [hsnap, List.forall_mem_cons]
    exact ⟨⟨htx, hfits, w, hgenuine, hwit⟩, h⟩

theorem after_vetted {calls : List (PoolCall K)} (hcalls : ∀ call ∈ calls, call.Grounded txs) :
    ∀ tx ∈ (Mempool.after calls).snapshot, Vetted K txs tx := by
  induction calls using List.reverseRecOn with
  | nil =>
    intro tx htx
    cases htx
  | append_singleton calls call ih =>
    have ih := ih fun c hc => hcalls c (List.mem_append_left _ hc)
    have hcall := hcalls call (by simp)
    rw [Mempool.after_snoc]
    cases call with
    | accept tx u =>
      obtain ⟨htx, chain, hchain, hledger⟩ := hcall
      obtain ⟨t, hr⟩ := rebuildUtxoSet_ok.mp hchain
      rcases call_accept (Mempool.after calls) tx u with he | hacc
      · rw [he]
        exact ih
      · exact vetted_accept ih htx (hr.genuine hledger) hacc
    | remove walk txid =>
      intro tx htx
      exact ih tx ((mem_remove (after_consistent calls) walk).mp htx).1
    | clear =>
      intro tx htx
      cases htx

end

end Caesar
