import Caesar.LimitSound
import Caesar.Wallet

/-!
# The wallet sees what it can spend

The validator applies transactions one after another and removes what they
spend. The wallet forms one set of outputs and one of inputs and subtracts. When
no txid repeats the two agree, except for what the inputs of the genesis block
name: the validator never applies them.
-/

namespace Caesar

open Codec

section
variable {K : Crypto} {addr : Bytes}

/-! ## The scan -/

/-- What `process` has gathered after the transactions `txs`. -/
structure CoinScan.Sees (K : Crypto) (addr : Bytes) (txs : List Transaction) (scan : CoinScan) : Prop where
  spent : ∀ k, k ∈ scan.spent ↔ k ∈ txs.flatMap Transaction.points
  found : ∀ {k item}, scan.unspent.lookup k = some item → item.point = k ∧
    ∃ output, (k, output) ∈ Coins.created (txs.map (Transaction.entry K)) ∧ output.recipient = addr ∧
      output.amount = item.amount
  kept : ∀ {k output}, (k, output) ∈ Coins.created (txs.map (Transaction.entry K)) → output.recipient = addr →
    k ∈ scan.unspent

theorem CoinScan.sees_empty : CoinScan.empty.Sees K addr [] where
  spent k := by simp [CoinScan.empty]
  found h := by simp [CoinScan.empty] at h
  kept h := by simp [Coins.created] at h

theorem findOutputs_keeps {txid : Hash256} {k : OutPoint} : ∀ {outputs : List TransactionOutput} {i : Nat} {m : FoundCoins},
    k ∈ m → k ∈ findOutputs addr txid i outputs m
  | [], _, _, h => h
  | output :: rest, i, m, h => by
    rw [findOutputs]
    apply findOutputs_keeps
    split
    · exact (AList.mem_insert _).mpr (Or.inr h)
    · exact h

theorem findOutputs_kept {txid : Hash256} {k : OutPoint} {output : TransactionOutput} (hto : output.recipient = addr) :
    ∀ {outputs : List TransactionOutput} {i : Nat} {m : FoundCoins}, (k, output) ∈ outputsAt txid i outputs →
      k ∈ findOutputs addr txid i outputs m
  | [], _, _, h => by simp [outputsAt] at h
  | first :: rest, i, m, h => by
    rw [outputsAt_cons, List.mem_cons] at h
    rw [findOutputs]
    rcases h with he | h
    · obtain ⟨rfl, rfl⟩ := Prod.mk.inj he
      apply findOutputs_keeps
      rw [if_pos hto]
      exact (AList.mem_insert _).mpr (Or.inl rfl)
    · exact findOutputs_kept hto h

theorem findOutputs_found {txid : Hash256} {k : OutPoint} {item : WalletUtxo} :
    ∀ {outputs : List TransactionOutput} {i : Nat} {m : FoundCoins},
      (findOutputs addr txid i outputs m).lookup k = some item → m.lookup k = some item ∨ item.point = k ∧
        ∃ output, (k, output) ∈ outputsAt txid i outputs ∧ output.recipient = addr ∧ output.amount = item.amount
  | [], _, _, h => Or.inl h
  | first :: rest, i, m, h => by
    rw [findOutputs] at h
    rw [outputsAt_cons]
    rcases findOutputs_found h with hm | ⟨hpoint, output, hmem, hto, hamount⟩
    · split at hm
      · rename_i hto
        by_cases hk : k = ⟨txid, UInt32.ofNat i⟩
        · rw [hk, AList.lookup_insert, Option.some.injEq] at hm
          rw [hk, ← hm]
          exact Or.inr ⟨rfl, first, List.mem_cons_self, hto, rfl⟩
        · rw [AList.lookup_insert_ne hk] at hm
          exact Or.inl hm
      · exact Or.inl hm
    · exact Or.inr ⟨hpoint, output, List.mem_cons_of_mem _ hmem, hto, hamount⟩

theorem CoinScan.Sees.step {txs : List Transaction} {scan : CoinScan} (h : scan.Sees K addr txs) (tx : Transaction) :
    CoinScan.Sees K addr (txs ++ [tx])
      ⟨scan.spent ∪ tx.points.toFinset, findOutputs addr (tx.id K) 0 tx.outputs scan.unspent⟩ := by
  have hcreated : Coins.created ((txs ++ [tx]).map (Transaction.entry K)) =
      Coins.created (txs.map (Transaction.entry K)) ++ outputsAt (tx.id K) 0 tx.outputs := by
    rw [List.map_append, Coins.created_append]
    simp [Coins.created, Transaction.entry]
  refine ⟨?_, ?_, ?_⟩
  · intro k
    rw [Finset.mem_union, h.spent k, List.mem_toFinset, List.flatMap_append, List.mem_append]
    simp
  · intro k item hk
    rw [hcreated]
    rcases findOutputs_found hk with hk | ⟨hpoint, output, hmem, hto⟩
    · obtain ⟨hpoint, output, hmem, hto⟩ := h.found hk
      exact ⟨hpoint, output, List.mem_append_left _ hmem, hto⟩
    · exact ⟨hpoint, output, List.mem_append_right _ hmem, hto⟩
  · intro k output hmem hto
    rw [hcreated, List.mem_append] at hmem
    rcases hmem with hmem | hmem
    · exact findOutputs_keeps (h.kept hmem hto)
    · exact findOutputs_kept hto hmem

theorem process_sees : ∀ {rest txs : List Transaction} {scan : CoinScan}, scan.Sees K addr txs →
    (∀ tx ∈ rest, tx.BaseFits uint32Max) → ∃ after, process K addr rest scan = .ok after ∧ after.Sees K addr (txs ++ rest)
  | [], txs, scan, h, _ => ⟨scan, rfl, by rwa [List.append_nil]⟩
  | tx :: rest, txs, scan, h, hf => by
    rw [List.forall_mem_cons] at hf
    obtain ⟨after, hafter, hsees⟩ := process_sees (h.step tx) hf.2
    refine ⟨after, ?_, by rwa [List.append_assoc] at hsees⟩
    rw [process, (txid_ok K tx _).mpr ⟨hf.1, rfl⟩]
    exact hafter

theorem processChain_sees : ∀ {blocks : List Block} {txs : List Transaction} {scan : CoinScan}, scan.Sees K addr txs →
    (∀ tx ∈ blocks.flatMap Block.transactions, tx.BaseFits uint32Max) →
    ∃ after, processChain K addr blocks scan = .ok after ∧ after.Sees K addr (txs ++ blocks.flatMap Block.transactions)
  | [], txs, scan, h, _ => ⟨scan, rfl, by rwa [List.flatMap_nil, List.append_nil]⟩
  | block :: blocks, txs, scan, h, hf => by
    rw [List.flatMap_cons, List.forall_mem_append] at hf
    obtain ⟨middle, hmiddle, hsees⟩ := process_sees h hf.1
    obtain ⟨after, hafter, hsees⟩ := processChain_sees hsees hf.2
    refine ⟨after, ?_, by rwa [List.append_assoc] at hsees⟩
    rw [processChain, hmiddle]
    exact hafter

theorem CoinScan.Sees.mem_result {txs : List Transaction} {scan : CoinScan} (h : scan.Sees K addr txs) {coins : CoinWalk}
    {item : WalletUtxo} : item ∈ scan.result coins ↔
      item.point ∉ txs.flatMap Transaction.points ∧ scan.unspent.lookup item.point = some item := by
  rw [CoinScan.result, List.mem_filterMap]
  constructor
  · rintro ⟨⟨k, found⟩, hmem, hitem⟩
    split at hitem
    · cases hitem
    · rename_i hk
      obtain rfl := Option.some.inj hitem
      have hlookup := AList.mem_lookup_iff.mpr ((coins.perm _).subset hmem)
      obtain ⟨rfl, -⟩ := h.found hlookup
      exact ⟨fun hs => hk ((h.spent _).mpr hs), hlookup⟩
  · rintro ⟨hs, hlookup⟩
    refine ⟨⟨item.point, item⟩, (coins.perm _).mem_iff.mpr (AList.mem_lookup_iff.mp hlookup), ?_⟩
    rw [if_neg fun hk => hs ((h.spent _).mp hk)]

theorem CoinScan.Sees.result_nodup {txs : List Transaction} {scan : CoinScan} (h : scan.Sees K addr txs)
    (coins : CoinWalk) : ((scan.result coins).map WalletUtxo.point).Nodup := by
  have hsub : ∀ l : List (Σ _ : OutPoint, WalletUtxo), (∀ e ∈ l, e.2.point = e.1) →
      ((l.filterMap fun e => if e.1 ∈ scan.spent then none else some e.2).map WalletUtxo.point).Sublist (l.map Sigma.fst) := by
    intro l hl
    induction l with
    | nil => exact List.Sublist.slnil
    | cons e l ih =>
      rw [List.forall_mem_cons] at hl
      rw [List.filterMap_cons, List.map_cons]
      split
      · exact (ih hl.2).cons _
      · rename_i item hitem
        split at hitem
        · cases hitem
        · obtain rfl := Option.some.inj hitem
          rw [List.map_cons, hl.1]
          exact (ih hl.2).cons_cons _
  have hkeys : ((coins.order scan.unspent).map Sigma.fst).Nodup :=
    ((coins.perm scan.unspent).map Sigma.fst).nodup_iff.mpr scan.unspent.nodupKeys
  refine (hsub _ fun e he => ?_).nodup hkeys
  exact (h.found (AList.mem_lookup_iff.mpr ((coins.perm _).subset he))).1

theorem process_fits : ∀ {txs : List Transaction} {scan after : CoinScan}, process K addr txs scan = .ok after →
    ∀ tx ∈ txs, tx.BaseFits uint32Max
  | [], _, _, _ => by simp
  | tx :: rest, scan, after, h => by
    obtain ⟨txid, hid, h⟩ := bind_ok.mp h
    exact List.forall_mem_cons.mpr ⟨((txid_ok K tx _).mp hid).1, process_fits h⟩

theorem processChain_fits : ∀ {blocks : List Block} {scan after : CoinScan}, processChain K addr blocks scan = .ok after →
    ∀ tx ∈ blocks.flatMap Block.transactions, tx.BaseFits uint32Max
  | [], _, _, _ => by simp
  | block :: blocks, scan, after, h => by
    obtain ⟨middle, hmiddle, h⟩ := bind_ok.mp h
    exact List.forall_mem_append.mpr ⟨process_fits hmiddle, processChain_fits h⟩

theorem entry_index {tx : Transaction} (hf : tx.BaseFits uint32Max) {k : OutPoint} (hk : k ∈ (tx.entry K).keys) :
    k.outputIndex ≠ 0xffffffff := by
  have hlen := hf.outputs
  obtain ⟨⟨j, output⟩, hmem, rfl⟩ := List.mem_map.mp hk
  obtain ⟨⟨o, n⟩, hn, he⟩ := List.mem_map.mp hmem
  obtain ⟨rfl, rfl⟩ := Prod.mk.inj he
  have hbound := List.mem_zipIdx hn
  intro hindex
  have hnat := congrArg UInt32.toNat hindex
  rw [UInt32.toNat_ofNat'] at hnat
  unfold uint32Max at hlen
  have : (4294967295 : UInt32).toNat = 4294967295 := rfl
  omega

theorem coinbase_points {tx : Transaction} (h : isCoinbaseTransaction tx = true) :
    ∃ hash, tx.points = [⟨hash, 0xffffffff⟩] := by
  unfold isCoinbaseTransaction at h
  split at h
  · rename_i input hinputs
    split at h
    · cases h
    · rename_i hindex
      refine ⟨input.previousTxid, ?_⟩
      rw [Transaction.points, hinputs, List.map_singleton, TransactionInput.point, Classical.not_not.mp hindex]
  · cases h

theorem spendAndAdd_some {tx : Transaction} {u w : UTXOSet} (h : spendAndAdd K tx u = .ok (some w)) :
    tx.BaseFits uint32Max ∧ ∀ k ∈ tx.points, k ∈ u := by
  unfold spendAndAdd at h
  split at h
  · cases h
  · rename_i spent hspent
    obtain ⟨txid, hid, -⟩ := bind_ok.mp h
    rw [spendInputs_eq] at hspent
    exact ⟨((txid_ok K tx _).mp hid).1, (Coins.mem_of_spendAll hspent).2⟩

theorem applyOrdered_coins : ∀ {txs : List Transaction} {u w : UTXOSet}, (∀ k ∈ u, k.outputIndex ≠ 0xffffffff) →
    applyOrdered K txs u = .ok (some w) →
    (∀ tx ∈ txs, tx.BaseFits uint32Max) ∧ Coins.applyAll (txs.map (Transaction.entry K)) u = some w
  | [], u, w, _, h => by
    rw [applyOrdered, Except.ok.injEq] at h
    exact ⟨by simp, h⟩
  | tx :: txs, u, w, hu, h => by
    obtain ⟨v, hv, h⟩ := ifSome_ok.mp h
    obtain ⟨hf, hin⟩ := spendAndAdd_some hv
    have hplain : isCoinbaseTransaction tx = false := by
      rw [Bool.eq_false_iff]
      intro hc
      obtain ⟨hash, hpoints⟩ := coinbase_points hc
      exact hu _ (hin ⟨hash, 0xffffffff⟩ (by rw [hpoints, List.mem_singleton])) rfl
    rw [spendAndAdd_eq hf, poolEntry_eq hplain, Except.ok.injEq] at hv
    have hnext : ∀ k ∈ v, k.outputIndex ≠ 0xffffffff := by
      intro k hk
      have hall : Coins.applyAll [tx.entry K] u = some v := Coins.applyAll_cons_some.mpr ⟨v, hv, rfl⟩
      rcases Coins.mem_of_applyAll hall hk with hku | hkc
      · exact hu k hku
      · obtain ⟨e, he, hke⟩ := Coins.mem_created_keys.mp hkc
        rw [List.mem_singleton.mp he] at hke
        exact entry_index hf hke
    obtain ⟨hfits, hw⟩ := applyOrdered_coins hnext h
    exact ⟨List.forall_mem_cons.mpr ⟨hf, hfits⟩, Coins.applyAll_cons_some.mpr ⟨v, hv, hw⟩⟩

/-! ## Both ways of counting -/

theorem Replay.utxo_index {chain : List Block} {u : UTXOSet} {t : UInt64} (h : Replay K chain u t) :
    ∀ k ∈ u, k.outputIndex ≠ 0xffffffff := by
  intro k hk
  rcases Coins.mem_of_applyAll h.coins hk with hn | hc
  · exact absurd hn Finmap.notMem_empty
  · obtain ⟨e, he, hke⟩ := Coins.mem_created_keys.mp hc
    obtain ⟨tx, htx, rfl⟩ := List.mem_map.mp he
    exact entry_index (ledger_fits h tx htx).toBaseFits hke

/-- Of the outpoints that are created, the transactions name those that their entries spend. -/
theorem mem_points_iff {txs : List Transaction} {k : OutPoint} (hk : k.outputIndex ≠ 0xffffffff) :
    k ∈ txs.flatMap Transaction.points ↔ k ∈ Coins.spent (txs.map (Transaction.entry K)) := by
  rw [Coins.spent, List.flatMap_map, List.mem_flatMap, List.mem_flatMap]
  refine exists_congr fun tx => and_congr_right fun _ => ?_
  cases hc : isCoinbaseTransaction tx with
  | false => rw [plain_inputs hc]
  | true =>
    obtain ⟨hash, hpoints⟩ := coinbase_points hc
    rw [hpoints, List.mem_singleton]
    simp only [Transaction.entry, hc, if_true, List.not_mem_nil, iff_false]
    rintro rfl
    exact hk rfl

theorem created_index {txs : List Transaction} (hf : ∀ tx ∈ txs, tx.BaseFits uint32Max) {k : OutPoint}
    {output : TransactionOutput} (h : (k, output) ∈ Coins.created (txs.map (Transaction.entry K))) :
    k.outputIndex ≠ 0xffffffff := by
  obtain ⟨e, he, hke⟩ := Coins.mem_created_keys.mp (List.mem_map_of_mem h)
  obtain ⟨tx, htx, rfl⟩ := List.mem_map.mp he
  exact entry_index (hf tx htx) hke

/-- When the outputs of `first` are all to others, an output to `addr` is one of `txs`. -/
theorem created_later {first txs : List Transaction} (h : ∀ tx ∈ first, ∀ output ∈ tx.outputs, output.recipient ≠ addr)
    {k : OutPoint} {output : TransactionOutput}
    (hmem : (k, output) ∈ Coins.created ((first ++ txs).map (Transaction.entry K))) (hto : output.recipient = addr) :
    (k, output) ∈ Coins.created (txs.map (Transaction.entry K)) := by
  rw [List.map_append, Coins.created_append, List.mem_append] at hmem
  rcases hmem with hmem | hmem
  · obtain ⟨e, he, hke⟩ := List.mem_flatMap.mp hmem
    obtain ⟨tx, htx, rfl⟩ := List.mem_map.mp he
    obtain ⟨⟨o, n⟩, hn, heq⟩ := List.mem_map.mp hke
    obtain ⟨-, rfl⟩ := Prod.mk.inj heq
    exact absurd hto (h tx htx o (List.fst_mem_of_mem_zipIdx hn))
  · exact hmem

/-- With the genesis block apart, both sides see the same coins. -/
theorem CoinScan.Sees.effective {genesis txs order : List Transaction} {scan : CoinScan} {w : UTXOSet}
    (h : scan.Sees K addr (genesis ++ txs)) (hperm : order.Perm txs)
    (hw : Coins.applyAll (order.map (Transaction.entry K)) ∅ = some w) (hf : ∀ tx ∈ txs, tx.BaseFits uint32Max)
    (hids : (txs.map (Transaction.id K)).Nodup)
    (hgenesis : ∀ tx ∈ genesis, ∀ output ∈ tx.outputs, output.recipient ≠ addr) (coins : CoinWalk) (item : WalletUtxo) :
    item ∈ scan.result coins ↔ (∀ tx ∈ genesis, item.point ∉ tx.points) ∧
      ∃ output, w.lookup item.point = some output ∧ output.recipient = addr ∧ output.amount = item.amount := by
  have hnodup : ((Coins.created (txs.map (Transaction.entry K))).map Prod.fst).Nodup :=
    List.nodup_iff_count_le_one.mpr (count_entries_le_one hf hids)
  have hlookup : ∀ {k output}, w.lookup k = some output ↔
      (k, output) ∈ Coins.created (txs.map (Transaction.entry K)) ∧ k ∉ Coins.spent (txs.map (Transaction.entry K)) :=
    Coins.lookup_iff_unspent hw (hperm.map _) hnodup
  have hmine : ∀ {k output}, (k, output) ∈ Coins.created ((genesis ++ txs).map (Transaction.entry K)) →
      output.recipient = addr → (k, output) ∈ Coins.created (txs.map (Transaction.entry K)) :=
    fun hmem hto => created_later hgenesis hmem hto
  rw [h.mem_result, List.flatMap_append, List.mem_append, not_or]
  have hfree : (item.point ∉ genesis.flatMap Transaction.points) ↔ ∀ tx ∈ genesis, item.point ∉ tx.points := by
    simp only [List.mem_flatMap, not_exists, not_and]
  rw [hfree]
  constructor
  · rintro ⟨⟨hg, hs⟩, hfound⟩
    obtain ⟨-, output, hmem, hto, hamount⟩ := h.found hfound
    have hcreated := hmine hmem hto
    refine ⟨hg, output, hlookup.mpr ⟨hcreated, ?_⟩, hto, hamount⟩
    rwa [← mem_points_iff (created_index hf hcreated)]
  · rintro ⟨hg, output, hw', hto, hamount⟩
    obtain ⟨hcreated, hs⟩ := hlookup.mp hw'
    rw [← mem_points_iff (created_index hf hcreated)] at hs
    refine ⟨⟨hg, hs⟩, ?_⟩
    have hkept : item.point ∈ scan.unspent := by
      refine h.kept ?_ hto
      rw [List.map_append, Coins.created_append]
      exact List.mem_append_right _ hcreated
    obtain ⟨other, hother⟩ := Option.isSome_iff_exists.mp (AList.lookup_isSome.mpr hkept)
    obtain ⟨hpoint, output', hmem, hto', hamount'⟩ := h.found hother
    have heq : (item.point, output') = (item.point, output) :=
      List.inj_on_of_nodup_map hnodup (hmine hmem hto') hcreated rfl
    rw [hother, Option.some.injEq]
    obtain ⟨htxid, hindex⟩ := OutPoint.mk.inj hpoint
    exact WalletUtxo.ext htxid hindex (by rw [← hamount', (Prod.mk.inj heq).2, hamount])

/-- The wallet lists each coin of its address in the UTXO set of chain and pool, unless a genesis input names it. -/
theorem wallet_coins_exact (coins : CoinWalk) (publicKey : Bytes) {genesis : Block} {blocks : List Block} {u w : UTXOSet}
    {mempool order : List Transaction} (hchain : rebuildUtxoSet K (genesis :: blocks) = .ok u) (hperm : order.Perm mempool)
    (happly : applyOrdered K order u = .ok (some w))
    (hids : ((blocks.flatMap Block.transactions ++ mempool).map (Transaction.id K)).Nodup)
    (hgenesis : ∀ tx ∈ genesis.transactions, ∀ output ∈ tx.outputs, output.recipient ≠ addressFromPublicKey K publicKey) :
    ∃ result, collectMyUtxos K coins (addressFromPublicKey K publicKey) (genesis :: blocks) mempool = .ok result ∧
      (result.map WalletUtxo.point).Nodup ∧
      ∀ item, item ∈ result ↔ (∀ tx ∈ genesis.transactions, item.point ∉ tx.points) ∧
        ∃ output, w.lookup item.point = some output ∧ output.recipient = addressFromPublicKey K publicKey ∧
          output.amount = item.amount := by
  obtain ⟨t, hr⟩ := rebuildUtxoSet_ok.mp hchain
  obtain ⟨hpool, hw⟩ := applyOrdered_coins hr.utxo_index happly
  have hchainFits : ∀ tx ∈ (genesis :: blocks).flatMap Block.transactions, tx.BaseFits uint32Max := by
    intro tx htx
    obtain ⟨block, hb, ht⟩ := List.mem_flatMap.mp htx
    exact ((validateRoots_true (basic_roots (hr.basic block hb))).1 tx ht).toBaseFits
  have hpoolFits : ∀ tx ∈ mempool, tx.BaseFits uint32Max := fun tx htx => hpool tx (hperm.mem_iff.mpr htx)
  have hempty : CoinScan.empty.Sees K (addressFromPublicKey K publicKey) [] := CoinScan.sees_empty
  obtain ⟨first, hfirst, hsees⟩ := processChain_sees hempty hchainFits
  obtain ⟨scan, hscan, hsees⟩ := process_sees hsees hpoolFits
  rw [List.nil_append, List.flatMap_cons, List.append_assoc] at hsees
  refine ⟨scan.result coins, ?_, hsees.result_nodup coins, ?_⟩
  · have hne : ¬ (addressFromPublicKey K publicKey).isEmpty = true := by
      rw [List.isEmpty_iff]
      exact List.ne_nil_of_length_pos (by rw [address_length]; omega)
    rw [collectMyUtxos, if_neg hne, hfirst]
    show (process K _ mempool first).bind _ = _
    rw [hscan]
    rfl
  · refine hsees.effective (hperm.append_left _) ?_ ?_ hids hgenesis coins
    · rw [List.map_append, Coins.applyAll_append_some]
      exact ⟨u, hr.coins, hw⟩
    · rw [List.forall_mem_append]
      exact ⟨fun tx htx => (ledger_fits hr tx htx).toBaseFits, hpoolFits⟩

end

def toyCoins : CoinWalk := ⟨AList.entries, fun _ => .refl _⟩

/-- The pool spends the coin of the chain, and the wallet sees the change. -/
theorem wallet_coins_exact_toy : ∃ u w result, rebuildUtxoSet toyCrypto [toyGenesis, toyFirst] = .ok u ∧
    applyOrdered toyCrypto [toyPooled] u = .ok (some w) ∧
    collectMyUtxos toyCrypto toyCoins toyAddress [toyGenesis, toyFirst] [toyPooled] = .ok result ∧
    (result.map WalletUtxo.point).Nodup ∧ ⟨toyPooled.id toyCrypto, 0, 5⟩ ∈ result := by
  have hvalue : (do
      let u ← rebuildUtxoSet toyCrypto [toyGenesis, toyFirst]
      let w ← applyOrdered toyCrypto [toyPooled] u
      pure (w.bind fun w => w.lookup ⟨toyPooled.id toyCrypto, 0⟩)) = (.ok (some ⟨5, toyAddress⟩) : Result _) := by
    decide +kernel
  obtain ⟨u, hu, hvalue⟩ := bind_ok.mp hvalue
  obtain ⟨r, hw, hvalue⟩ := bind_ok.mp hvalue
  cases r with
  | none => cases hvalue
  | some w =>
    have hcoin : w.lookup ⟨toyPooled.id toyCrypto, 0⟩ = some ⟨5, toyAddress⟩ := Except.ok.inj hvalue
    obtain ⟨result, hresult, hnodup, hexact⟩ := wallet_coins_exact toyCoins toyKey hu (.refl _) hw
      (by decide +kernel) (by decide +kernel)
    exact ⟨u, w, result, hu, hw, hresult, hnodup, (hexact _).mpr ⟨by decide +kernel, _, hcoin, rfl, rfl⟩⟩

/-! ## A coin that a genesis input names

The coinbase of the first block does not depend on the genesis block, so a
genesis transaction can name its output. The validator accepts the chain and
holds the coin; the wallet takes it for spent.
-/

def namingGenesis : Block :=
  toyBlock 0 Hash256.zero 0 [⟨1, [], [⟨(toyCoinbase 1).id toyCrypto, 0⟩], [⟨1, [7]⟩], []⟩]

theorem genesis_input_hides_coin : ∃ u,
    rebuildUtxoSet toyCrypto [namingGenesis, toyNext namingGenesis [toyCoinbase 1]] = .ok u ∧
    applyOrdered toyCrypto [] u = .ok (some u) ∧
    (([namingGenesis, toyNext namingGenesis [toyCoinbase 1]].flatMap Block.transactions).map
      (Transaction.id toyCrypto)).Nodup ∧
    (∀ tx ∈ namingGenesis.transactions, ∀ output ∈ tx.outputs, output.recipient ≠ toyAddress) ∧
    u.lookup ⟨(toyCoinbase 1).id toyCrypto, 0⟩ = some ⟨blockSubsidy 1, toyAddress⟩ ∧
    collectMyUtxos toyCrypto toyCoins toyAddress [namingGenesis, toyNext namingGenesis [toyCoinbase 1]] [] = .ok [] := by
  have hvalue : (do
      let u ← rebuildUtxoSet toyCrypto [namingGenesis, toyNext namingGenesis [toyCoinbase 1]]
      pure (u.lookup ⟨(toyCoinbase 1).id toyCrypto, 0⟩)) = (.ok (some ⟨blockSubsidy 1, toyAddress⟩) : Result _) := by
    decide +kernel
  obtain ⟨u, hu, hvalue⟩ := bind_ok.mp hvalue
  exact ⟨u, hu, rfl, by decide +kernel, by decide +kernel, Except.ok.inj hvalue, by decide +kernel⟩

end Caesar
