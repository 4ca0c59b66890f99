import Caesar.AmountSound
import Caesar.CoherenceSound
import Caesar.MiningSound
import Caesar.SendSound
import Caesar.WalletSound

/-!
# A payment is settled by the next block

What `/api/send` answers with a txid is in the pool, the next block that the node
builds takes the whole pool, and once that block is stored the recipient has the
amount, the wallet has the rest of the coins it spent, and those coins are gone.
-/

namespace Caesar

open Codec

section
variable {K : Crypto}

/-! ## The coins gathered -/

theorem gatherInputs_reaches (target : UInt64) : ∀ (utxos : List WalletUtxo) (inputs : List TransactionInput)
    (gathered : UInt64), (gatherInputs target utxos inputs gathered).2 ≥ target ∨
      (gatherInputs target utxos inputs gathered).2 = utxos.foldl (fun total utxo => total + utxo.amount) gathered
  | [], _, _ => .inr rfl
  | utxo :: rest, inputs, gathered => by
    rw [gatherInputs]
    by_cases hreached : gathered + utxo.amount ≥ target
    · left
      simp only [hreached, if_true]
    · simp only [hreached, if_false]
      exact gatherInputs_reaches target rest _ _

structure Transaction.Spends (tx : Transaction) (amount : UInt64) (recipient address : Bytes) (spent : List WalletUtxo) :
    Prop where
  inputs : tx.inputs = spent.map fun utxo => ⟨utxo.txid, utxo.index⟩
  enough : amount ≤ walletBalance spent
  outputs : tx.outputs = ⟨amount, recipient⟩ ::
    if walletBalance spent - amount > 0 then [⟨walletBalance spent - amount, address⟩] else []

theorem buildSend_spends {wallet : PoolWallet} {amount : UInt64} {recipient : Bytes} {utxos : List WalletUtxo}
    {tx : Transaction} (h : buildSend K wallet amount recipient utxos = .ok tx) :
    ∃ spent, (∀ utxo ∈ spent, utxo ∈ utxos) ∧ tx.Spends amount recipient (wallet.myAddress K) spent := by
  obtain ⟨hfunds, h⟩ := ite_error_ok.mp h
  obtain ⟨back, hback, h⟩ := bind_ok.mp h
  obtain ⟨publicKey, hkey, h⟩ := bind_ok.mp h
  obtain ⟨spent, hspent, -, hgather⟩ := gatherInputs_spent amount utxos [] 0
  have henough : amount ≤ walletBalance spent := by
    have hreaches := gatherInputs_reaches amount utxos [] 0
    rw [hgather] at hreaches
    rcases hreaches with hge | hall
    · exact hge
    · exact le_of_le_of_eq (UInt64.not_lt.mp hfunds) hall.symm
  rw [hgather] at hback h
  obtain ⟨hinputs, houtputs⟩ := signInputs_ok h
  refine ⟨spent, fun utxo hutxo => hspent.subset hutxo, hinputs, henough, ?_⟩
  rw [houtputs]
  unfold changeOutputs at hback
  rw [hkey] at hback
  unfold PoolWallet.myAddress walletBalance
  rw [hkey]
  by_cases hchange : spent.foldl (fun total utxo => total + utxo.amount) 0 - amount > 0
  · rw [if_pos hchange] at hback ⊢
    rw [← Except.ok.inj hback]
  · rw [if_neg hchange] at hback ⊢
    rw [← Except.ok.inj hback]

theorem SendCall.build_spends {V : VaultLib} {call : SendCall K V} {tx : Transaction} (h : call.build = .ok tx) :
    ∃ wallet amount utxos spent, call.wallet = some wallet ∧ call.amount = .ok amount ∧
      call.node.collectMyUtxos call.walk call.coins (wallet.myAddress K) = .ok utxos ∧ (∀ utxo ∈ spent, utxo ∈ utxos) ∧
      tx.Spends amount (getField "recipient" call.body) (wallet.myAddress K) spent := by
  rw [build] at h
  cases hwallet : call.wallet with
  | none =>
    rw [hwallet] at h
    cases h
  | some wallet =>
    rw [hwallet] at h
    obtain ⟨amount, hamount, h⟩ := bind_ok.mp h
    obtain ⟨-, h⟩ := ite_error_ok.mp h
    obtain ⟨utxos, hutxos, h⟩ := bind_ok.mp h
    obtain ⟨spent, hsub, hspends⟩ := buildSend_spends h
    exact ⟨wallet, amount, utxos, spent, rfl, hamount, hutxos, hsub, hspends⟩

theorem SendCall.apiSend_sent {V : VaultLib} {call : SendCall K V} {hex : Bytes} {sent : Node K}
    (h : call.apiSend = (.sent hex, sent)) : ∃ tx, call.build = .ok tx ∧ hex = hashToHex (tx.id K) ∧
      call.node.acceptTransaction tx = (.ok .none, sent) := by
  unfold apiSend at h
  split at h
  · cases h
  · split at h
    · cases h
    · cases hbuild : call.build with
      | error e =>
        rw [hbuild] at h
        cases h
      | ok tx =>
        rw [hbuild] at h
        dsimp only at h
        rcases hsubmit : call.node.submitTransaction call.connections tx with ⟨_ | _ | _, after⟩
        · rw [hsubmit] at h
          cases h
        · rw [hsubmit] at h
          cases h
        · cases hid : tx.txid K with
          | error e =>
            rw [hsubmit, hid] at h
            cases h
          | ok txid =>
            rw [hsubmit, hid] at h
            obtain ⟨hreply, rfl⟩ := Prod.mk.inj h
            obtain ⟨hresult, hnode⟩ := Prod.mk.inj hsubmit
            obtain ⟨reason, hreason, hnone⟩ := exists_of_map_ok hresult
            obtain rfl := of_decide_eq_true hnone
            rw [Node.acceptAndAnnounce, announcing_node] at hnode
            rw [Node.acceptAndAnnounce, announcing_ok (by decide)] at hreason
            refine ⟨tx, rfl, ?_, Prod.ext hreason.1 hnode⟩
            rw [← SendReply.sent.inj hreply, ((txid_ok K tx txid).mp hid).2]

/-! ## The coins are the wallet's -/

variable {txs : List Transaction} {chain : List Block} {u w : UTXOSet} {t : UInt64} {pool : Mempool K}

theorem collected_owned {coins : CoinWalk} {addr : Bytes} {genesis : Block} {blocks : List Block}
    {mempool order : List Transaction} {result : List WalletUtxo} (hr : Replay K (genesis :: blocks) u t)
    (hperm : order.Perm mempool) (hw : Coins.applyAll (order.map (Transaction.entry K)) u = some w)
    (hids : ((blocks.flatMap Block.transactions ++ mempool).map (Transaction.id K)).Nodup)
    (hgenesis : ∀ tx ∈ genesis.transactions, ∀ output ∈ tx.outputs, output.recipient ≠ addr)
    (h : collectMyUtxos K coins addr (genesis :: blocks) mempool = .ok result) :
    ∀ utxo ∈ result, w.lookup utxo.point = some ⟨utxo.amount, addr⟩ := by
  unfold collectMyUtxos at h
  split at h
  · obtain rfl := Except.ok.inj h
    simp
  · obtain ⟨first, hfirst, h⟩ := bind_ok.mp h
    obtain ⟨scan, hscan, h⟩ := bind_ok.mp h
    have hpoolFits := process_fits hscan
    obtain ⟨first', hfirst', hsees⟩ := processChain_sees CoinScan.sees_empty (processChain_fits hfirst)
    obtain rfl := Except.ok.inj (hfirst.symm.trans hfirst')
    obtain ⟨scan', hscan', hsees⟩ := process_sees hsees hpoolFits
    obtain rfl := Except.ok.inj (hscan.symm.trans hscan')
    rw [List.nil_append, List.flatMap_cons, List.append_assoc] at hsees
    have hall : Coins.applyAll ((blocks.flatMap Block.transactions ++ order).map (Transaction.entry K)) ∅ = some w := by
      rw [List.map_append, Coins.applyAll_append_some]
      exact ⟨u, hr.coins, hw⟩
    have hfits : ∀ tx ∈ blocks.flatMap Block.transactions ++ mempool, tx.BaseFits uint32Max := by
      rw [List.forall_mem_append]
      exact ⟨fun tx htx => (ledger_fits hr tx htx).toBaseFits, hpoolFits⟩
    intro utxo hutxo
    rw [← pure_ok.mp h] at hutxo
    obtain ⟨-, output, hlookup, rfl, hamount⟩ :=
      (hsees.effective (hperm.append_left _) hall hfits hids hgenesis coins utxo).mp hutxo
    rw [hlookup, ← hamount]

theorem Coherent.collected {node : Node K} {walk : Walk K} {coins : CoinWalk} {addr : Bytes} {order : List Transaction}
    {result : List WalletUtxo} (hn : (txs.map (Transaction.id K)).Nodup) (hsub : (ledger chain).Subperm txs)
    (h : Coherent K txs chain u node.mempool) (hr : Replay K chain u t) (hload : node.storage.load K = .ok chain)
    (hperm : order.Perm node.mempool.snapshot) (hw : Coins.applyAll (order.map (Transaction.entry K)) u = some w)
    (hgenesis : ∀ genesis blocks, chain = genesis :: blocks →
      ∀ tx ∈ genesis.transactions, ∀ output ∈ tx.outputs, output.recipient ≠ addr)
    (hresult : node.collectMyUtxos walk coins addr = .ok result) :
    ∀ utxo ∈ result, w.lookup utxo.point = some ⟨utxo.amount, addr⟩ := by
  unfold Node.collectMyUtxos at hresult
  split at hresult
  · obtain rfl := Except.ok.inj hresult
    simp
  · obtain ⟨loaded, hloaded, hresult⟩ := bind_ok.mp hresult
    obtain rfl := Except.ok.inj (hload.symm.trans hloaded)
    have hwalk := walk.perm node.mempool
    have hids : ((ledger chain ++ walk.order node.mempool).map (Transaction.id K)).Nodup := by
      rw [List.map_append, List.nodup_append']
      refine ⟨ledger_ids_nodup hn hsub, (hwalk.map _).nodup_iff.mpr (snapshot_ids_nodup _), ?_⟩
      intro id hchain hpool
      obtain ⟨tx, htx, rfl⟩ := List.mem_map.mp hpool
      exact h.offChain tx (hwalk.mem_iff.mp htx) hchain
    cases chain with
    | nil => exact absurd rfl hr.ne_nil
    | cons genesis blocks =>
      exact collected_owned hr (hperm.trans hwalk.symm) hw hids (hgenesis genesis blocks rfl) hresult

/-! ## The new UTXO set -/

theorem spent_txid {l : List Transaction} (h : Coins.applyAll (l.map (Transaction.entry K)) ∅ = some w) {k : OutPoint}
    (hk : k ∈ Coins.spent (l.map (Transaction.entry K))) : ∃ tx ∈ l, k.txid = tx.id K := by
  have hcount := Coins.applyAll_count h k
  have hempty : Coins.held (∅ : UTXOSet) k = 0 := if_neg Finmap.notMem_empty
  have hspent := List.count_pos_iff.mpr hk
  have hcreated : k ∈ (Coins.created (l.map (Transaction.entry K))).map Prod.fst := List.count_pos_iff.mp (by omega)
  obtain ⟨e, he, hke⟩ := Coins.mem_created_keys.mp hcreated
  obtain ⟨tx, htx, rfl⟩ := List.mem_map.mp he
  exact ⟨tx, htx, entry_txid hke⟩

theorem outputs_unspent {block : Block} {coinbase tx : Transaction} {ordered order : List Transaction} {u' : UTXOSet}
    {t' : UInt64} (hr : Replay K chain u t) (hr' : Replay K (chain ++ [block]) u' t')
    (hids : ((ledger (chain ++ [block])).map (Transaction.id K)).Nodup)
    (hblock : block.transactions = coinbase :: ordered) (hcoinbase : isCoinbaseTransaction coinbase = true)
    (hordered : ordered.Perm (tx :: order)) (hw : Coins.applyAll (order.map (Transaction.entry K)) u = some w)
    (hpresent : ∀ k ∈ tx.points, k ∈ w) (hnew : ∀ p ∈ ledger chain ++ order, p.id K ≠ tx.id K) :
    ∀ item ∈ (tx.entry K).outputs, u'.lookup item.1 = some item.2 := by
  have hall : Coins.applyAll ((ledger chain ++ order).map (Transaction.entry K)) ∅ = some w := by
    rw [List.map_append, Coins.applyAll_append_some]
    exact ⟨u, hr.coins, hw⟩
  have hledger : ledger (chain ++ [block]) = ledger chain ++ coinbase :: ordered := by
    rw [ledger_append hr.ne_nil, List.flatMap_singleton, hblock]
  have hcreated : ((Coins.created ((ledger (chain ++ [block])).map (Transaction.entry K))).map Prod.fst).Nodup :=
    List.nodup_iff_count_le_one.mpr (count_entries_le_one (fun p hp => (ledger_fits hr' p hp).toBaseFits) hids)
  rintro ⟨k, output⟩ hitem
  have hkey : k.txid = tx.id K := entry_txid (List.mem_map_of_mem hitem)
  refine (Coins.lookup_iff_unspent hr'.coins (.refl _) hcreated).mpr ⟨?_, ?_⟩
  · have hmem : tx ∈ ledger (chain ++ [block]) := by
      rw [hledger]
      exact List.mem_append_right _ (List.mem_cons_of_mem _ (hordered.mem_iff.mpr List.mem_cons_self))
    exact List.mem_flatMap.mpr ⟨_, List.mem_map_of_mem hmem, hitem⟩
  · intro hspent
    obtain ⟨e, he, hke⟩ := Coins.mem_spent.mp hspent
    obtain ⟨p, hp, rfl⟩ := List.mem_map.mp he
    -- an older transaction that names it would have found it on the chain or in the pool
    have holder : p ∈ ledger chain ++ order → False := by
      intro hold
      obtain ⟨q, hq, hid⟩ := spent_txid hall (Coins.mem_spent.mpr ⟨_, List.mem_map_of_mem hold, hke⟩)
      exact hnew q hq (hid.symm.trans hkey)
    rw [hledger, List.mem_append, List.mem_cons, hordered.mem_iff, List.mem_cons] at hp
    rcases hp with hp | rfl | rfl | hp
    · exact holder (List.mem_append_left _ hp)
    · simp [Transaction.entry, hcoinbase] at hke
    · have hk : k ∈ p.points := by
        simp only [Transaction.entry] at hke
        split at hke
        · cases hke
        · exact hke
      rcases txid_of_applyAll hw (hpresent k hk) with hku | ⟨q, hq, hid⟩
      · obtain ⟨q, hq, hid⟩ := List.mem_map.mp (utxo_txid hr hku)
        exact hnew q (List.mem_append_left _ hq) (hid.trans hkey)
      · exact hnew q (List.mem_append_right _ hq) (hid.symm.trans hkey)
    · exact holder (List.mem_append_right _ hp)

/-! ## The whole way -/

/-- The wallet at `address` has paid: the coins it spent are gone, the recipient has the amount, and the rest is back. -/
structure Transaction.Paid (K : Crypto) (tx : Transaction) (amount : UInt64) (recipient address : Bytes)
    (spent : List WalletUtxo) (before after : UTXOSet) : Prop where
  owned : ∀ utxo ∈ spent, before.lookup utxo.point = some ⟨utxo.amount, address⟩
  gone : ∀ utxo ∈ spent, utxo.point ∉ after
  paid : after.lookup ⟨tx.id K, 0⟩ = some ⟨amount, recipient⟩
  rest : ∃ change : UInt64, coins spent = amount.toNat + change.toNat ∧
    (change = 0 ∨ after.lookup ⟨tx.id K, 1⟩ = some ⟨change, address⟩)

theorem Transaction.Spends.points {tx : Transaction} {amount : UInt64} {recipient address : Bytes}
    {spent : List WalletUtxo} (h : tx.Spends amount recipient address spent) : tx.points = spent.map WalletUtxo.point := by
  rw [Transaction.points, h.inputs, List.map_map]
  rfl

theorem Transaction.Spends.balance {tx : Transaction} {amount : UInt64} {recipient address : Bytes}
    {spent : List WalletUtxo} (h : tx.Spends amount recipient address spent) (hb : Balanced tx w)
    (howned : ∀ utxo ∈ spent, w.lookup utxo.point = some ⟨utxo.amount, address⟩) :
    coins spent = amount.toNat + (walletBalance spent - amount).toNat := by
  have hworth : (tx.points.map (amountAt w)).sum = coins spent := by
    rw [h.points, List.map_map, coins]
    congr 1
    refine List.map_congr_left fun utxo hutxo => ?_
    simp [amountAt, Coins.valueAt, howned utxo hutxo]
  obtain ⟨s, -, hs⟩ := hb.inputSums tx.points.length
  rw [List.take_length, hworth] at hs
  have hbalance : (walletBalance spent).toNat = coins spent := walletBalance_toNat (hs ▸ s.toNat_lt)
  have henough := UInt64.le_iff_toNat_le.mp h.enough
  rw [UInt64.toNat_sub_of_le _ _ h.enough, hbalance]
  omega

/-- What is sent from a node whose pool is coherent with its chain is settled by the next block of that node. -/
theorem Coherent.settles {tx : Transaction} {amount : UInt64} {recipient address : Bytes} {spent : List WalletUtxo}
    {after : Mempool K} {block : Block} {coinbase : Transaction} {ordered : List Transaction} {u' : UTXOSet} {t' : UInt64}
    (hn : (txs.map (Transaction.id K)).Nodup) (hsub : (ledger (chain ++ [block])).Subperm txs)
    (h : Coherent K txs chain u pool) (hr : Replay K chain u t) (htx : tx ∈ txs) (hc : isCoinbaseTransaction tx = false)
    (hacc : pool.accept tx u = .ok (.none, after)) (hspends : tx.Spends amount recipient address spent)
    (hw : pool.buildEffectiveUtxo u = .ok (some w))
    (howned : ∀ utxo ∈ spent, w.lookup utxo.point = some ⟨utxo.amount, address⟩)
    (hordered : after.orderedTransactions u = .ok ordered) (hblock : block.transactions = coinbase :: ordered)
    (hr' : Replay K (chain ++ [block]) u' t') :
    tx ∈ block.transactions ∧ (∀ p ∈ pool.snapshot, p ∈ block.transactions) ∧
      tx.Paid K amount recipient address spent w u' := by
  have hledger : ledger (chain ++ [block]) = ledger chain ++ block.transactions := by
    rw [ledger_append hr.ne_nil, List.flatMap_singleton]
  have hchain : (ledger chain).Subperm txs := (List.sublist_append_left _ _).subperm.trans (hledger ▸ hsub)
  have hids := ledger_ids_nodup hn hsub
  have hafter := h.accept hn hchain hr htx hc hacc
  obtain ⟨order, w', hperm, happly, heff⟩ := buildEffectiveUtxo_ok (h.placeable hr)
  obtain rfl : w' = w := Option.some.inj (Except.ok.inj (heff.symm.trans hw))
  rcases accept_ok hacc with ⟨hne, -⟩ | ⟨-, hsnap, -, hcontains, -, -, w'', heff', hwitness⟩
  · exact absurd rfl hne
  obtain rfl : w'' = w' := Option.some.inj (Except.ok.inj (heff'.symm.trans heff))
  have hauth := authorized_of_validate hwitness
  obtain ⟨ordered', -, hordered', hall, -⟩ := orderedTransactions_ok (hafter.placeable hr)
  obtain rfl : ordered' = ordered := Except.ok.inj (hordered'.symm.trans hordered)
  rw [hsnap] at hall
  have hmem : ∀ p ∈ tx :: pool.snapshot, p ∈ block.transactions := by
    intro p hp
    rw [hblock]
    exact List.mem_cons_of_mem _ (hall.mem_iff.mpr hp)
  have hcoinbase : isCoinbaseTransaction coinbase = true := by
    obtain ⟨v, s, -, ha⟩ := Replay.of_snoc hr.ne_nil hr'
    obtain ⟨first, rest, x, hfirst, hpaid, -⟩ := applyBlock_ok.mp ha.applies
    obtain ⟨rfl, -⟩ := List.cons.inj (hblock.symm.trans hfirst)
    exact (coinbase_true (applyCoinbase_ok.mp hpaid).1).1
  have hnew : ∀ p ∈ ledger chain ++ order, p.id K ≠ tx.id K := by
    intro p hp hid
    rcases List.mem_append.mp hp with hp | hp
    · exact hafter.offChain tx (hsnap ▸ List.mem_cons_self) (hid ▸ List.mem_map_of_mem hp)
    · rw [contains_iff.mpr ⟨p, hperm.subset hp, hid⟩] at hcontains
      cases hcontains
  have houtputs := outputs_unspent hr hr' hids hblock hcoinbase (hall.trans (hperm.symm.cons tx)) happly hauth.present hnew
  rw [Transaction.entry, hspends.outputs] at houtputs
  refine ⟨hmem tx List.mem_cons_self, fun p hp => hmem p (List.mem_cons_of_mem _ hp), howned, ?_, ?_, ?_⟩
  · intro utxo hutxo hmine
    obtain ⟨output, hlookup⟩ := Finmap.mem_iff.mp hmine
    have hcreated : ((Coins.created ((ledger (chain ++ [block])).map (Transaction.entry K))).map Prod.fst).Nodup :=
      List.nodup_iff_count_le_one.mpr (count_entries_le_one (fun p hp => (ledger_fits hr' p hp).toBaseFits) hids)
    refine ((Coins.lookup_iff_unspent hr'.coins (.refl _) hcreated).mp hlookup).2 ?_
    refine Coins.mem_spent.mpr ⟨tx.entry K, List.mem_map_of_mem ?_, ?_⟩
    · rw [hledger]
      exact List.mem_append_right _ (hmem tx List.mem_cons_self)
    · rw [plain_inputs hc, hspends.points]
      exact List.mem_map_of_mem hutxo
  · exact houtputs (⟨tx.id K, 0⟩, ⟨amount, recipient⟩) (by simp [outputsAt_cons])
  · refine ⟨_, hspends.balance hauth.toBalanced howned, ?_⟩
    by_cases hchange : walletBalance spent - amount > 0
    · right
      refine houtputs (⟨tx.id K, 1⟩, ⟨walletBalance spent - amount, address⟩) ?_
      rw [if_pos hchange, outputsAt_cons, outputsAt_cons]
      simp
    · left
      exact UInt64.le_zero_iff.mp (UInt64.not_lt.mp hchange)

theorem Node.RunsWithin.last : ∀ {calls : List (Call K)} {node : Node K}, node.RunsWithin txs calls →
    (node.run calls).StoresWithin txs
  | [], _, h => h
  | call :: calls, node, h => show ((node.call call).run calls).StoresWithin txs from Node.RunsWithin.last h.2.2

/-- After any calls, when no batch of relayed blocks spends what the pool has reserved: a payment that `/api/send` reports
as sent is in the block that the node builds next, with the rest of the pool. Once that block is stored the coins spent are
gone, the recipient has the amount, and all that is left of the coins is back at the wallet. -/
theorem payment_settles {V : VaultLib} (hn : (txs.map (Transaction.id K)).Nodup) {start : Node K} {first : List Block}
    (hstore : start.storage = some first) (hvalid : validateCandidateChain K first = .ok true)
    (hempty : start.mempool = Mempool.empty K) {calls : List (Call K)} (hwithin : start.RunsWithin txs calls)
    (hspare : start.RunSpares calls) {call : SendCall K V} (hnode : call.node = start.run calls)
    (hgenesis : ∀ wallet ∈ call.wallet, ∀ genesis blocks, call.node.storage = some (genesis :: blocks) →
      ∀ tx ∈ genesis.transactions, ∀ output ∈ tx.outputs, output.recipient ≠ wallet.myAddress K)
    {hex : Bytes} {sent mined : Node K} {block : Block} (hsend : call.apiSend = (.sent hex, sent))
    (hplay : ∀ tx, call.build = .ok tx → tx ∈ txs) (hbuilds : sent.Builds block) (hsubmits : sent.Submits block mined)
    (hmined : mined.StoresWithin txs) :
    ∃ chain wallet amount tx spent utxos before after, call.node.storage = some chain ∧ call.wallet = some wallet ∧
      call.amount = .ok amount ∧ hex = hashToHex (tx.id K) ∧ rebuildUtxoSet K chain = .ok utxos ∧
      call.node.mempool.buildEffectiveUtxo utxos = .ok (some before) ∧ mined.storage = some (chain ++ [block]) ∧
      rebuildUtxoSet K (chain ++ [block]) = .ok after ∧ tx ∈ block.transactions ∧
      (∀ p ∈ call.node.mempool.snapshot, p ∈ block.transactions) ∧
      tx.Paid K amount (getField "recipient" call.body) (wallet.myAddress K) spent before after := by
  obtain ⟨u₀, t₀, hr₀⟩ := candidate_iff.mp hvalid
  have hstart : start.Settled txs := ⟨first, u₀, t₀, hstore, hr₀, coherent_nil (hempty ▸ empty_snapshot)⟩
  obtain ⟨chain, u, t, hchain, hr, hcoh⟩ := hstart.run hn hwithin hspare
  rw [← hnode] at hchain hcoh
  obtain ⟨tx, hbuild, hhex, haccept⟩ := call.apiSend_sent hsend
  obtain ⟨wallet, amount, utxos, spent, hwallet, hamount, hutxos, hsub, hspends⟩ := call.build_spends hbuild
  obtain ⟨loaded, v, s, hload, hr', hcase⟩ := acceptTransaction_ok haccept
  obtain rfl : chain = loaded := Option.some.inj (hchain.symm.trans (load_ok.mp hload).1)
  obtain ⟨rfl, -⟩ := hr.unique hr'
  rcases hcase with ⟨hinvalid, -⟩ | ⟨hc, pool, hacc, rfl⟩
  · cases hinvalid
  -- the block is built on the same chain, from the pool with the payment
  obtain ⟨loaded, v, coinbase, ordered, hbuilt, hv, hordered, hblock⟩ := builds_ok hbuilds
  obtain rfl : chain = loaded := Except.ok.inj (hload.symm.trans hbuilt)
  obtain rfl : u = v := Except.ok.inj ((rebuildUtxoSet_ok.mpr ⟨t, hr⟩).symm.trans hv)
  obtain ⟨loaded, v, s, u', t', hstored, hr', happends, rfl⟩ := Submits.mines hsubmits
  obtain rfl : chain = loaded := Except.ok.inj (hload.symm.trans hstored)
  obtain ⟨rfl, rfl⟩ := hr.unique hr'
  have hafter := Replay.snoc hr happends
  obtain ⟨order, w, hperm, hw, heff⟩ := buildEffectiveUtxo_ok (hcoh.placeable hr)
  have hstores : (ledger chain).Subperm txs := (hnode ▸ hwithin.last) chain hchain
  have howned : ∀ utxo ∈ utxos, w.lookup utxo.point = some ⟨utxo.amount, wallet.myAddress K⟩ := by
    refine hcoh.collected hn hstores hr hload hperm hw ?_ hutxos
    intro genesis blocks hchained
    exact hgenesis wallet hwallet genesis blocks (hchained ▸ hchain)
  obtain ⟨hin, hrest, hpaid⟩ := hcoh.settles hn (hmined _ rfl) hr (hplay tx hbuild) hc hacc hspends heff
    (fun utxo hutxo => howned utxo (hsub utxo hutxo)) hordered hblock hafter
  exact ⟨chain, wallet, amount, tx, spent, u, w, u', hchain, hwallet, hamount, hhex, rebuildUtxoSet_ok.mpr ⟨t, hr⟩, heff,
    rfl, rebuildUtxoSet_ok.mpr ⟨t', hafter⟩, hin, hrest, hpaid⟩

end

/-! ## A payment of five -/

def toyPayment : SendCall toyCrypto AuthState.toyVaultLib := toySend [] (.number ⟨false, 5, none, none⟩)

def toyPaid : Transaction :=
  ⟨1, [], [⟨(toyCoinbase 1).id toyCrypto, 0⟩], [⟨5, toyAddress⟩, ⟨blockSubsidy 1 - 5, toyAddress⟩], [⟨toyKey, [9]⟩]⟩

theorem payment_settles_toy : ∃ hex tx after, toyPayment.apiSend.1 = .sent hex ∧ hex = hashToHex (tx.id toyCrypto) ∧
    tx ∈ (toyTemplate [toyPaid]).transactions ∧
    rebuildUtxoSet toyCrypto [toyGenesis, toyFirst, toyTemplate [toyPaid]] = .ok after ∧
    after.lookup ⟨tx.id toyCrypto, 0⟩ = some ⟨5, toyAddress⟩ := by
  have hsent : toyPayment.apiSend.1.isSent = true := by decide +kernel
  obtain ⟨hex, hhex⟩ : ∃ hex, toyPayment.apiSend.1 = .sent hex := by
    cases hreply : toyPayment.apiSend.1 with
    | sent hex => exact ⟨hex, rfl⟩
    | failed status error =>
      rw [hreply] at hsent
      cases hsent
  have hsend : toyPayment.apiSend = (.sent hex, toyPayment.apiSend.2) := by rw [← hhex]
  have hbuild : toyPayment.build = .ok toyPaid := by decide +kernel
  have hsubmits : toyPayment.apiSend.2.Submits (toyTemplate [toyPaid])
      (toyPayment.apiSend.2.submitPoolSolution (toyTemplate [toyPaid])).2 := submits_of (by decide +kernel)
  have hstored : (toyPayment.apiSend.2.submitPoolSolution (toyTemplate [toyPaid])).2.storage =
      some [toyGenesis, toyFirst, toyTemplate [toyPaid]] := by decide +kernel
  have hids : ([toyCoinbase 1, toyCoinbase 2, toyPaid].map (Transaction.id toyCrypto)).Nodup := by decide +kernel
  have hamount : toyPayment.amount = .ok 5 := by decide +kernel
  have hrecipient : getField "recipient" toyPayment.body = toyAddress := by decide +kernel
  have howner : ∀ tx ∈ toyGenesis.transactions, ∀ output ∈ tx.outputs,
      output.recipient ≠ PoolWallet.myAddress toyCrypto ⟨.ok toyKey, fun _ => .ok [9]⟩ := by decide +kernel
  have hgenesis : ∀ wallet ∈ toyPayment.wallet, ∀ genesis blocks, toyPayment.node.storage = some (genesis :: blocks) →
      ∀ tx ∈ genesis.transactions, ∀ output ∈ tx.outputs, output.recipient ≠ wallet.myAddress toyCrypto := by
    intro wallet hwallet genesis blocks hstore
    obtain rfl := Option.some.inj hwallet
    obtain ⟨rfl, -⟩ := List.cons.inj (Option.some.inj hstore)
    exact howner
  have hwithin : (toyNode [toyGenesis, toyFirst]).RunsWithin [toyCoinbase 1, toyCoinbase 2, toyPaid] [] :=
    storesWithin_of rfl (by decide +kernel)
  have hnode : toyPayment.node = (toyNode [toyGenesis, toyFirst]).run [] := rfl
  have hplay : ∀ tx, toyPayment.build = .ok tx → tx ∈ [toyCoinbase 1, toyCoinbase 2, toyPaid] := by
    intro tx htx
    obtain rfl := Except.ok.inj (hbuild.symm.trans htx)
    simp
  obtain ⟨chain, wallet, amount, tx, spent, utxos, before, after, hchain, -, hread, hid, -, -, -, hafter, hin, -, hpaid⟩ :=
    payment_settles hids rfl (by decide +kernel) rfl hwithin trivial hnode hgenesis hsend hplay
      (toyTemplate_builds (by decide +kernel)) hsubmits (storesWithin_of hstored (by decide +kernel))
  obtain rfl := Option.some.inj (show some [toyGenesis, toyFirst] = some chain from hchain)
  obtain rfl := Except.ok.inj (hamount.symm.trans hread)
  exact ⟨hex, tx, after, hhex, hid, hin, hafter, hrecipient ▸ hpaid.paid⟩

end Caesar
