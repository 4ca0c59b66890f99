import Caesar.SurvivorSound
import Caesar.IssuanceSound

/-!
# Built blocks

`buildBlock` puts a coinbase before the pool in its order. The transactions of the
pool were checked against other UTXO sets; here they are checked again, each after
the ones before it, and pass because they are vetted. The supply leaves room for
the coinbase.
-/

namespace Caesar

open Codec

section
variable {K : Crypto}

/-! ## The coinbase -/

def coinbaseAfter (previous : Block) (recipient : Bytes) : Transaction where
  version := 1
  coinbaseData := writeU64 (previous.header.height + 1)
  inputs := [⟨Hash256.zero, 0xffffffff⟩]
  outputs := [⟨blockSubsidy (previous.header.height + 1), recipient⟩]
  witness := []

theorem coinbaseAfter_made {previous : Block} {recipient : Bytes} {coinbase : Transaction}
    (h : makeCoinbaseTransaction (previous.header.height + 1) recipient (previous.header.height + 1) = .ok coinbase) :
    coinbase = coinbaseAfter previous recipient := by
  obtain ⟨-, h⟩ := ite_error_ok.mp h
  obtain ⟨-, h⟩ := ite_error_ok.mp h
  exact (Except.ok.inj h).symm

theorem coinbaseAfter_coinbase (previous : Block) (recipient : Bytes) :
    isCoinbaseTransaction (coinbaseAfter previous recipient) = true := by
  simp [isCoinbaseTransaction, coinbaseAfter, isZeroHash, Hash256.zero]

theorem coinbaseAfter_valid {previous : Block} {recipient : Bytes} (hheight : previous.header.height + 1 ≠ 0)
    (hne : recipient ≠ []) :
    validateCoinbaseTransaction (coinbaseAfter previous recipient) (previous.header.height + 1) = true := by
  unfold validateCoinbaseTransaction
  rw [coinbaseAfter_coinbase, if_neg (by simp), if_neg hheight]
  simp [coinbaseAfter, hne]

variable {txs : List Transaction} {chain : List Block} {u : UTXOSet} {t : UInt64} {previous : Block}

theorem issuance_room (hr : Replay K chain u t) (hlen : chain.length < 2 ^ 64)
    (hlast : chain.getLast? = some previous) :
    previous.header.height + 1 ≠ 0 ∧
      ¬ blockSubsidy (previous.header.height + 1) > czrMaxSupply - t := by
  have hpos := List.length_pos_of_ne_nil hr.ne_nil
  have hprevious : previous.header.height.toNat = chain.length - 1 := by
    apply hr.height
    rw [← List.getLast?_eq_getElem?, hlast]
  have hnext : previous.header.height + 1 = UInt64.ofNat chain.length := by
    apply UInt64.toNat_inj.mp
    rw [UInt64.toNat_add, hprevious, UInt64.toNat_ofNat', Nat.mod_eq_of_lt hlen]
    have hone : (1 : UInt64).toNat = 1 := rfl
    omega
  obtain ⟨-, hissued, hcapped⟩ := hr.supplied
  have hsupply := subsidies_le_supply hlen
  have hsum := subsidies_succ (chain.length - 1)
  rw [Nat.sub_add_cancel hpos] at hsum
  constructor
  · rw [hnext]
    intro hzero
    have h := congrArg UInt64.toNat hzero
    rw [UInt64.toNat_ofNat', Nat.mod_eq_of_lt hlen] at h
    have h0 : (0 : UInt64).toNat = 0 := rfl
    omega
  · rw [gt_iff_lt, UInt64.lt_iff_toNat_lt, UInt64.toNat_sub_of_le _ _ (UInt64.le_iff_toNat_le.mpr hcapped), hnext]
    omega

/-! ## The transactions -/

theorem Genuine.mono {more : List Transaction} (h : Genuine K txs u) (hsub : ∀ tx ∈ txs, tx ∈ more) :
    Genuine K more u := by
  intro k x hk
  obtain ⟨tx, htx, hrest⟩ := h k x hk
  exact ⟨tx, hsub tx htx, hrest⟩

theorem Vetted.mono {tx : Transaction} {more : List Transaction} (h : Vetted K txs tx)
    (hsub : ∀ tx ∈ txs, tx ∈ more) : Vetted K more tx := by
  obtain ⟨u, hu, hv⟩ := h.admitted
  exact ⟨hsub tx h.inPlay, h.fits, u, hu.mono hsub, hv⟩

theorem applyTransactions_vetted (hcf : CollisionFree K (txs.map Transaction.bytes)) {l : List Transaction} :
    ∀ {u w : UTXOSet}, Genuine K txs u → (∀ tx ∈ l, Vetted K txs tx) →
      Coins.applyAll (l.map (Transaction.entry K)) u = some w → applyTransactions K l u = .ok (some w) := by
  induction l with
  | nil =>
    intro u w _ _ hw
    rw [applyTransactions]
    exact congrArg Except.ok hw
  | cons tx l ih =>
    intro u w hu hl hw
    rw [List.forall_mem_cons] at hl
    rw [List.map_cons, Coins.applyAll_cons_some] at hw
    obtain ⟨x, hx, hw⟩ := hw
    obtain ⟨y, hy, -⟩ := Coins.apply_eq_some.mp hx
    have hpresent := (Coins.mem_of_spendAll hy).2
    rw [plain_inputs hl.1.plain] at hpresent
    have hgenuine : Genuine K txs x := by
      apply hu.applyAll (l := [tx])
      · intro p hp
        rw [List.mem_singleton.mp hp]
        exact ⟨hl.1.inPlay, hl.1.fits.toBaseFits⟩
      · exact Coins.applyAll_cons_some.mpr ⟨x, hx, rfl⟩
    rw [applyTransactions_cons]
    refine ⟨x, applyTransaction_ok.mpr ⟨hl.1.plain, ?_, hl.1.fits.toBaseFits, hx⟩, ih hgenuine hl.2 hw⟩
    exact hl.1.valid hcf hu hpresent

variable {recipient : Bytes}

theorem isCoinbase_strip (tx : Transaction) : isCoinbaseTransaction tx.strip = isCoinbaseTransaction tx := rfl

theorem applies_after_coinbase {pool : Mempool K} {ordered : List Transaction}
    (hcf : CollisionFree K ((coinbaseAfter previous recipient :: txs).map Transaction.bytes)) (hu : Genuine K txs u)
    (hvet : ∀ tx ∈ pool.snapshot, Vetted K txs tx) (hf : (coinbaseAfter previous recipient).BaseFits uint32Max)
    (hpool : ∀ k ∈ u, ∀ tx ∈ pool.snapshot, k.txid ≠ tx.id K)
    (hcoin : ∀ k ∈ u, k.txid ≠ (coinbaseAfter previous recipient).id K)
    (hperm : ordered = [] ∨ ordered.Perm pool.snapshot) {w : UTXOSet}
    (hw : Coins.applyAll (ordered.map (Transaction.entry K)) u = some w) :
    ∃ paid final, Coins.apply ((coinbaseAfter previous recipient).entry K) u = some paid ∧
      applyTransactions K ordered paid = .ok (some final) := by
  have hsub : ∀ tx ∈ txs, tx ∈ coinbaseAfter previous recipient :: txs := fun tx h => List.mem_cons_of_mem _ h
  have hnone : ((coinbaseAfter previous recipient).entry K).inputs = [] := by
    simp [Transaction.entry, coinbaseAfter_coinbase]
  have hfresh : Coins.Fresh [(coinbaseAfter previous recipient).entry K] u :=
    Coins.fresh_singleton.mpr ⟨entry_keys_nodup hf, fun k hk hku => hcoin k hku (entry_txid hk)⟩
  obtain ⟨paid, hpaid, -⟩ := hfresh.apply (by rw [hnone]; exact List.nodup_nil) (by rw [hnone]; simp)
  have hone : Coins.applyAll ([coinbaseAfter previous recipient].map (Transaction.entry K)) u = some paid :=
    Coins.applyAll_cons_some.mpr ⟨paid, hpaid, rfl⟩
  have hgenuine : Genuine K (coinbaseAfter previous recipient :: txs) paid := by
    apply (hu.mono hsub).applyAll _ hone
    intro tx htx
    rw [List.mem_singleton.mp htx]
    exact ⟨List.mem_cons_self, hf⟩
  have hmem : ∀ tx ∈ ordered, tx ∈ pool.snapshot := by
    rcases hperm with rfl | hperm
    · simp
    · exact fun tx htx => hperm.subset htx
  have hnew : ∀ k ∈ paid, ∀ tx ∈ pool.snapshot, k.txid ≠ tx.id K := by
    intro k hk tx htx he
    rcases txid_of_applyAll hone hk with hku | ⟨c, hc, hkc⟩
    · exact hpool k hku tx htx he
    · -- one spends an output and the other is a coinbase, so they differ before hashing
      rw [List.mem_singleton.mp hc] at hkc
      have hstrip := strip_eq hcf List.mem_cons_self (hsub tx (hvet tx htx).inPlay) hf
        (hvet tx htx).fits.toBaseFits (hkc.symm.trans he)
      have hplain := (hvet tx htx).plain
      have hsame : isCoinbaseTransaction (coinbaseAfter previous recipient) = isCoinbaseTransaction tx := by
        rw [← isCoinbase_strip, hstrip, isCoinbase_strip]
      rw [coinbaseAfter_coinbase, hplain] at hsame
      cases hsame
  have hlater : Coins.Fresh (ordered.map (Transaction.entry K)) paid := by
    rcases hperm with rfl | hperm
    · exact ⟨List.nodup_nil, by simp [Coins.created]⟩
    · exact (entries_fresh hnew).perm (hperm.map _).symm
  have hkeep : ∀ k ∈ Coins.spent (ordered.map (Transaction.entry K)), k ∈ u → k ∈ paid := by
    intro k _ hku
    refine Coins.mem_applyAll hone (Or.inl hku) ?_
    simp [Coins.spent, hnone]
  obtain ⟨final, hfinal⟩ := Coins.applyAll_transfer hw hkeep hlater
  exact ⟨paid, final, hpaid,
    applyTransactions_vetted hcf hgenuine (fun tx htx => (hvet tx (hmem tx htx)).mono hsub) hfinal⟩

/-! ## The block -/

theorem validateBasic_of_roots {block : Block} {coinbase : Transaction} {ordered : List Transaction} {root witness : Hash256}
    (hb : block.transactions = coinbase :: ordered) (hversion : block.header.version ≠ 0)
    (hheight : block.header.height ≠ 0) (hpow : block.validatePow K = true)
    (hcoin : validateCoinbaseTransaction coinbase block.header.height = true)
    (hplain : ∀ tx ∈ ordered, isCoinbaseTransaction tx = false) (hvalid : ∀ tx ∈ ordered, tx.validate = true)
    (hroot : block.calculateMerkleRoot K = .ok root) (hwitness : block.calculateWitnessRoot K = .ok witness)
    (hm : block.header.merkleRoot = root) (hw : block.header.witnessRoot = witness) :
    block.validateBasic K = .ok true := by
  have hposition : validateCoinbasePositionAndReward block.transactions block.header.height = true := by
    unfold validateCoinbasePositionAndReward
    rw [hb]
    dsimp only
    rw [(coinbase_true hcoin).1, hcoin, if_neg (by simp), if_neg (by simp), List.all_eq_true]
    intro tx htx
    rw [hplain tx htx]
    rfl
  have htail : block.transactions.tail.all Transaction.validate = true := by
    rw [hb, List.tail_cons, List.all_eq_true]
    exact hvalid
  have hroots : block.validateRoots K = .ok true := by
    simp [Block.validateRoots, Block.validateMerkleRoot, Block.validateWitnessRoot, hroot, hwitness, hm, hw, bind,
      Except.bind, pure, Except.pure]
  unfold Block.validateBasic
  rw [if_neg hversion, hpow, if_neg (by simp), if_neg hheight, hposition, if_neg (by simp), htail, if_neg (by simp),
    hroots]

/-- The built block, with any nonce that meets its difficulty, is one more block of the chain. -/
theorem built_appends {calls : List (PoolCall K)} {timestamp : UInt64}
    (hcf : CollisionFree K ((coinbaseAfter previous recipient :: txs).map Transaction.bytes))
    (hcalls : ∀ call ∈ calls, call.Grounded txs) (hr : Replay K chain u t)
    (hledger : ∀ tx ∈ ledger chain, tx ∈ txs) (hlen : chain.length < 2 ^ 64)
    (hlast : chain.getLast? = some previous) (hne : recipient ≠ []) (hrecipient : recipient.length ≤ uint32Max)
    (htime : ¬ timestamp < previous.header.timestamp)
    (hpool : ∀ k ∈ u, ∀ tx ∈ (Mempool.after calls).snapshot, k.txid ≠ tx.id K)
    (hcoin : ∀ k ∈ u, k.txid ≠ (coinbaseAfter previous recipient).id K) :
    ∃ block ordered,
      buildBlock K previous (Mempool.after calls) recipient timestamp (expectedNextDifficulty chain) 0 u = .ok block ∧
      block.transactions = coinbaseAfter previous recipient :: ordered ∧
      (ordered = [] ∨ ordered.Perm (Mempool.after calls).snapshot) ∧
      ∀ nonce, Block.validatePow K { block with header := { block.header with nonce := nonce } } = true →
        ∃ u' t', Appends K chain u t { block with header := { block.header with nonce := nonce } } u' t' := by
  have hvet := after_vetted hcalls
  have hgenuine := hr.genuine hledger
  obtain ⟨hheight, hissue⟩ := issuance_room hr hlen hlast
  obtain ⟨ordered, ho⟩ := orderedTransactions_returns (Mempool.after calls) u
  have hperm := orderedTransactions_perm ho
  have hmem : ∀ tx ∈ ordered, tx ∈ (Mempool.after calls).snapshot := by
    rcases hperm with rfl | hperm
    · simp
    · exact fun tx htx => hperm.subset htx
  have happlies : ∃ w, Coins.applyAll (ordered.map (Transaction.entry K)) u = some w := by
    rcases orderLoop_cases (pending_orderable _) (taking_start (pending_orderable _)) ho with rfl | ⟨-, w, hw⟩
    · exact ⟨u, rfl⟩
    · exact ⟨w, map_poolEntry (K := K) (fun tx htx => (hvet tx (hmem tx htx)).plain) ▸ hw⟩
  obtain ⟨w, hw⟩ := happlies
  obtain ⟨coinbase, block, hc, hupdate, hbuild⟩ := buildBlock_returns timestamp 0 (expectedNextDifficulty chain) hheight hne
    hrecipient ho fun tx htx => snapshot_fits (hmem tx htx)
  have hfits := (coinbase_size hrecipient hc).2.toBaseFits
  obtain rfl := coinbaseAfter_made hc
  obtain ⟨paid, final, hpaid, hfinal⟩ := applies_after_coinbase hcf hgenuine hvet hfits hpool hcoin hperm hw
  obtain ⟨root, witness, hroot, hwitness, rfl⟩ := updateMerkleRoot_ok hupdate
  have hvalid := coinbaseAfter_valid hheight hne
  refine ⟨_, ordered, hbuild, rfl, hperm, ?_⟩
  intro nonce hpow
  have hone : (1 : UInt32) ≠ 0 := by decide
  have hissued : ∃ t', addIssuedOutputs (coinbaseAfter previous recipient).outputs t = some t' := by
    refine ⟨t + blockSubsidy (previous.header.height + 1), ?_⟩
    rw [coinbaseAfter, addIssuedOutputs, if_neg hissue]
    rfl
  obtain ⟨t', hissued⟩ := hissued
  refine ⟨final, t', ?_, ⟨previous, hlast, rfl, rfl, htime, rfl⟩, ?_, ?_⟩
  · refine validateBasic_of_roots rfl hone hheight hpow hvalid (fun tx htx => (hvet tx (hmem tx htx)).plain) ?_
      hroot hwitness rfl rfl
    intro tx htx
    obtain ⟨v, -, hv⟩ := (hvet tx (hmem tx htx)).admitted
    exact (authorized_of_validate hv).valid
  · rw [issuance_cons rfl (coinbaseAfter_coinbase previous recipient)]
    exact hissued
  · rw [applyBlock_ok]
    exact ⟨_, ordered, paid, rfl, applyCoinbase_ok.mpr ⟨hvalid, hfits, hpaid⟩, hfinal⟩

/-- A block built from any pool that calls with UTXO sets of valid chains lead to is valid on top of any chain, once its
nonce is found; it takes the whole pool or nothing of it. -/
theorem built_block_valid {calls : List (PoolCall K)} {timestamp : UInt64}
    (hcf : CollisionFree K ((coinbaseAfter previous recipient :: txs).map Transaction.bytes))
    (hcalls : ∀ call ∈ calls, call.Grounded txs) (hchain : rebuildUtxoSet K chain = .ok u)
    (hledger : ∀ tx ∈ ledger chain, tx ∈ txs) (hlen : chain.length < 2 ^ 64)
    (hlast : chain.getLast? = some previous) (hne : recipient ≠ []) (hrecipient : recipient.length ≤ uint32Max)
    (htime : ¬ timestamp < previous.header.timestamp)
    (hpool : ∀ k ∈ u, ∀ tx ∈ (Mempool.after calls).snapshot, k.txid ≠ tx.id K)
    (hcoin : ∀ k ∈ u, k.txid ≠ (coinbaseAfter previous recipient).id K) :
    ∃ block, buildBlock K previous (Mempool.after calls) recipient timestamp (expectedNextDifficulty chain) 0 u = .ok block ∧
      (∀ nonce, Block.validatePow K { block with header := { block.header with nonce := nonce } } = true →
        validateBlockConsensus K { block with header := { block.header with nonce := nonce } } chain u = .ok true) ∧
      ∃ ordered, block.transactions = coinbaseAfter previous recipient :: ordered ∧
        (ordered = [] ∨ ordered.Perm (Mempool.after calls).snapshot) := by
  obtain ⟨t, hr⟩ := rebuildUtxoSet_ok.mp hchain
  obtain ⟨block, ordered, hbuild, hb, hperm, happends⟩ :=
    built_appends hcf hcalls hr hledger hlen hlast hne hrecipient htime hpool hcoin
  refine ⟨block, hbuild, ?_, ordered, hb, hperm⟩
  intro nonce hpow
  rw [consensus_iff_appends hr]
  exact happends nonce hpow

theorem buildBlock_ok {pool : Mempool K} {timestamp nonce : UInt64} {difficulty : UInt32} {block : Block}
    (h : buildBlock K previous pool recipient timestamp difficulty nonce u = .ok block) : ∃ ordered root witness,
      pool.orderedTransactions u = .ok ordered ∧
      (∀ tx ∈ coinbaseAfter previous recipient :: ordered, tx.BaseFits uint32Max) ∧
      block = ⟨⟨1, previous.header.height + 1, previous.hash K, root, witness, timestamp, nonce, difficulty⟩,
        coinbaseAfter previous recipient :: ordered⟩ := by
  obtain ⟨-, h⟩ := ite_error_ok.mp h
  obtain ⟨coinbase, hc, h⟩ := bind_ok.mp h
  obtain ⟨ordered, ho, h⟩ := bind_ok.mp h
  obtain rfl := coinbaseAfter_made hc
  obtain ⟨root, witness, hroot, -, rfl⟩ := updateMerkleRoot_ok h
  obtain ⟨ids, hids, -⟩ := bind_ok.mp hroot
  exact ⟨ordered, root, witness, ho, ((mapM_ok (txid_ok K)).mp hids).1, rfl⟩

theorem buildBlock_recipient {pool : Mempool K} {timestamp nonce : UInt64} {difficulty : UInt32} {block : Block}
    (h : buildBlock K previous pool recipient timestamp difficulty nonce u = .ok block) :
    recipient.length ≤ uint32Max := by
  obtain ⟨ordered, root, witness, -, hfits, -⟩ := buildBlock_ok h
  exact (hfits _ List.mem_cons_self).recipients ⟨blockSubsidy (previous.header.height + 1), recipient⟩ List.mem_cons_self

end

/-! ## A parent and its child in one block -/

def toyFamilyCalls : List (PoolCall toyCrypto) :=
  [.accept (toySpend (toyCoinbase 1) 5) toyUtxos, .accept (toySpend (toySpend (toyCoinbase 1) 5) 4) toyUtxos]

theorem built_block_valid_toy : ∃ block,
    buildBlock toyCrypto toyFirst (Mempool.after toyFamilyCalls) toyAddress 1 (expectedNextDifficulty [toyGenesis, toyFirst])
      0 toyUtxos = .ok block ∧ block.transactions.length = 3 ∧
    validateBlockConsensus toyCrypto block [toyGenesis, toyFirst] toyUtxos = .ok true := by
  have hcf : CollisionFree toyCrypto ((coinbaseAfter toyFirst toyAddress :: toyLineage).map Transaction.bytes) := by
    unfold CollisionFree
    decide +kernel
  have hrun : ((buildBlock toyCrypto toyFirst (Mempool.after toyFamilyCalls) toyAddress 1
      (expectedNextDifficulty [toyGenesis, toyFirst]) 0 toyUtxos).toOption.any fun block =>
        block.transactions.length = 3 ∧ block.validatePow toyCrypto ∧ block.header.nonce = 0) = true := by decide +kernel
  have htime : ¬ (1 : UInt64) < toyFirst.header.timestamp := by decide +kernel
  obtain ⟨block, hbuild, hvalid, -⟩ := built_block_valid hcf toyFamily_grounded toyUtxos_rebuilt (by decide +kernel)
    (by decide) rfl (by decide +kernel) (by decide +kernel) htime (by decide +kernel) (by decide +kernel)
  rw [toyFamilyCalls, hbuild] at hrun
  obtain ⟨hlen, hpow, hnonce⟩ := of_decide_eq_true hrun
  have hsame : { block with header := { block.header with nonce := 0 } } = block := by rw [← hnonce]
  exact ⟨block, hbuild, hlen, hsame ▸ hvalid 0 (hsame.symm ▸ hpow)⟩

def endlessRecipient : Bytes := List.replicate (uint32Max + 1) 7

theorem endless_recipient_throws : rebuildUtxoSet toyCrypto [toyGenesis] = .ok ∅ ∧ endlessRecipient ≠ [] ∧
    ∀ block, buildBlock toyCrypto toyGenesis (Mempool.empty toyCrypto) endlessRecipient toyGenesis.header.timestamp
      (expectedNextDifficulty [toyGenesis]) 0 ∅ ≠ .ok block := by
  have hlen : endlessRecipient.length = uint32Max + 1 := List.length_replicate ..
  refine ⟨by decide +kernel, ?_, ?_⟩
  · intro hnil
    rw [hnil] at hlen
    cases hlen
  · intro block h
    have hle := buildBlock_recipient h
    omega

end Caesar
