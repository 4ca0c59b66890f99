import Caesar.MempoolSound
import Caesar.CanonicalSound
import Caesar.RelaySound
import Caesar.TxidSound

/-!
# The pool and the stored chain

The pool is coherent with a chain when it applies, in some order, to the UTXO set
of the chain. Admission, mining and chain replacement restore this; relayed
blocks keep it as long as they spend nothing that the pool has reserved, because
`handleBlocks` does not look at the pool.
-/

namespace Caesar

open Codec

section
variable {K : Crypto}

/-- `txs` are the transactions in play; the pool holds some of them, none of which is on the chain. -/
structure Coherent (K : Crypto) (txs : List Transaction) (chain : List Block) (u : UTXOSet) (pool : Mempool K) :
    Prop where
  inPlay : ∀ tx ∈ pool.snapshot, tx ∈ txs
  plain : ∀ tx ∈ pool.snapshot, isCoinbaseTransaction tx = false
  spending : ∀ tx ∈ pool.snapshot, tx.points ≠ []
  reserved : ∀ tx ∈ pool.snapshot, ∀ k ∈ tx.points, k ∈ pool.reservedInputs
  offChain : ∀ tx ∈ pool.snapshot, tx.id K ∉ (ledger chain).map (Transaction.id K)
  applicable : Coins.Applicable (pool.snapshot.map (Transaction.entry K)) u

variable {txs : List Transaction} {chain more : List Block} {u u' : UTXOSet} {t t' : UInt64} {pool after : Mempool K}

theorem coherent_nil (h : pool.snapshot = []) : Coherent K txs chain u pool := by
  refine ⟨?_, ?_, ?_, ?_, ?_, ?_⟩
  all_goals simp only [h, List.not_mem_nil, false_implies, implies_true, List.map_nil]
  exact Coins.applicable_of_applyAll (w := u) rfl

theorem txid_of_applyAll {l : List Transaction} {w : UTXOSet}
    (h : Coins.applyAll (l.map (Transaction.entry K)) u = some w) {k : OutPoint} (hk : k ∈ w) :
    k ∈ u ∨ ∃ tx ∈ l, k.txid = tx.id K := by
  refine (Coins.mem_of_applyAll h hk).imp_right fun hc => ?_
  obtain ⟨e, he, hke⟩ := Coins.mem_created_keys.mp hc
  obtain ⟨tx, htx, rfl⟩ := List.mem_map.mp he
  exact ⟨tx, htx, entry_txid hke⟩

theorem utxo_txid (hr : Replay K chain u t) {k : OutPoint} (hk : k ∈ u) :
    k.txid ∈ (ledger chain).map (Transaction.id K) := by
  rcases txid_of_applyAll hr.coins hk with hn | ⟨tx, htx, he⟩
  · exact absurd hn Finmap.notMem_empty
  · exact he ▸ List.mem_map_of_mem htx

theorem count_entries_le_one {l : List Transaction} (hf : ∀ tx ∈ l, tx.BaseFits uint32Max)
    (hn : (l.map (Transaction.id K)).Nodup) (k : OutPoint) :
    ((Coins.created (l.map (Transaction.entry K))).map Prod.fst).count k ≤ 1 := by
  refine Coins.count_created_le_one OutPoint.txid (fun e he k hk => ?_) (fun e he => ?_) ?_ k
  · obtain ⟨tx, -, rfl⟩ := List.mem_map.mp he
    exact entry_txid hk
  · obtain ⟨tx, htx, rfl⟩ := List.mem_map.mp he
    exact entry_keys_nodup (hf tx htx)
  · rw [List.map_map]
    exact hn

theorem entries_fresh (hnew : ∀ k ∈ u, ∀ tx ∈ pool.snapshot, k.txid ≠ tx.id K) :
    Coins.Fresh (pool.snapshot.map (Transaction.entry K)) u := by
  refine ⟨List.nodup_iff_count_le_one.mpr
    (count_entries_le_one (fun tx htx => (snapshot_fits htx).toBaseFits) (snapshot_ids_nodup pool)), fun k hk hku => ?_⟩
  obtain ⟨e, he, hke⟩ := Coins.mem_created_keys.mp hk
  obtain ⟨tx, htx, rfl⟩ := List.mem_map.mp he
  exact hnew k hku tx htx (entry_txid hke)

theorem fresh_of_offChain (hr : Replay K chain u t)
    (hoff : ∀ tx ∈ pool.snapshot, tx.id K ∉ (ledger chain).map (Transaction.id K)) :
    Coins.Fresh (pool.snapshot.map (Transaction.entry K)) u :=
  entries_fresh fun _ hk tx htx he => hoff tx htx (he ▸ utxo_txid hr hk)

theorem Coherent.fresh (h : Coherent K txs chain u pool) (hr : Replay K chain u t) :
    Coins.Fresh (pool.snapshot.map (Transaction.entry K)) u :=
  fresh_of_offChain hr h.offChain

theorem Coherent.placeable (h : Coherent K txs chain u pool) (hr : Replay K chain u t) :
    Placeable K pool.snapshot u :=
  ⟨h.plain, h.applicable, h.fresh hr⟩

/-! ## Admission -/

theorem ledger_fits (hr : Replay K chain u t) : ∀ tx ∈ ledger chain, tx.Fits uint32Max := by
  intro tx htx
  obtain ⟨block, hb, ht⟩ := List.mem_flatMap.mp htx
  exact (validateRoots_true (basic_roots (hr.basic block (List.mem_of_mem_tail hb)))).1 tx ht

theorem ledger_ids_nodup (hn : (txs.map (Transaction.id K)).Nodup) (hsub : (ledger chain).Subperm txs) :
    ((ledger chain).map (Transaction.id K)).Nodup := by
  obtain ⟨l, hp, hs⟩ := hsub
  exact (hp.map (Transaction.id K)).nodup_iff.mp ((hs.map (Transaction.id K)).nodup hn)

/-- A transaction whose id is on the chain has lost its inputs there. -/
theorem offChain_of_present (hids : ((ledger chain).map (Transaction.id K)).Nodup) (hr : Replay K chain u t)
    (hoff : ∀ p ∈ pool.snapshot, p.id K ∉ (ledger chain).map (Transaction.id K)) {ordered : List Transaction}
    {w : UTXOSet} (hperm : ordered.Perm pool.snapshot)
    (hw : Coins.applyAll (ordered.map (Transaction.entry K)) u = some w) {tx : Transaction}
    (hsame : ∀ tx' ∈ ledger chain, tx'.id K = tx.id K → (tx'.entry K).inputs = tx.points) {k : OutPoint}
    (hk : k ∈ tx.points) (hkw : k ∈ w) : tx.id K ∉ (ledger chain).map (Transaction.id K) := by
  intro hmem
  obtain ⟨tx', htx', hid⟩ := List.mem_map.mp hmem
  have hspent : 0 < (Coins.spent ((ledger chain).map (Transaction.entry K))).count k :=
    List.count_pos_iff.mpr (Coins.mem_spent.mpr ⟨_, List.mem_map_of_mem htx', by rw [hsame tx' htx' hid]; exact hk⟩)
  have hcount := Coins.applyAll_count hr.coins k
  have hempty : Coins.held (∅ : UTXOSet) k = 0 := if_neg Finmap.notMem_empty
  rw [hempty] at hcount
  rcases txid_of_applyAll hw hkw with hku | ⟨p, hp, hpk⟩
  · -- created once, spent once, and still there
    have hone := count_entries_le_one (K := K) (fun tx htx => (ledger_fits hr tx htx).toBaseFits) hids k
    rw [Coins.held_eq_one.mpr hku] at hcount
    omega
  · have hcreated : k ∈ (Coins.created ((ledger chain).map (Transaction.entry K))).map Prod.fst :=
      List.count_pos_iff.mp (by omega)
    obtain ⟨e, he, hke⟩ := Coins.mem_created_keys.mp hcreated
    obtain ⟨q, hq, rfl⟩ := List.mem_map.mp he
    have hpq : p.id K = q.id K := by rw [← hpk, entry_txid hke]
    exact hoff p (hperm.subset hp) (hpq ▸ List.mem_map_of_mem hq)

/-- A transaction that finds its inputs after the pool can follow it. -/
theorem applicable_cons {ordered : List Transaction} {w : UTXOSet} (hperm : ordered.Perm pool.snapshot)
    (hw : Coins.applyAll (ordered.map (Transaction.entry K)) u = some w) {tx : Transaction}
    (hc : isCoinbaseTransaction tx = false) (hf : tx.BaseFits uint32Max) (hnodup : tx.points.Nodup)
    (hpresent : ∀ k ∈ tx.points, k ∈ w) (hnew : pool.contains (tx.id K) = false)
    (hout : ∀ k ∈ u, k.txid ≠ tx.id K) :
    Coins.Applicable ((tx :: pool.snapshot).map (Transaction.entry K)) u := by
  have hfresh : Coins.Fresh [tx.entry K] w := by
    rw [Coins.fresh_singleton]
    refine ⟨entry_keys_nodup hf, fun j hj hjw => ?_⟩
    rcases txid_of_applyAll hw hjw with hju | ⟨p, hp, hpj⟩
    · exact hout j hju (entry_txid hj)
    · have : pool.contains (tx.id K) = true :=
        contains_iff.mpr ⟨p, hperm.subset hp, by rw [← hpj, entry_txid hj]⟩
      rw [this] at hnew
      cases hnew
  have hinputs : (tx.entry K).inputs = tx.points := plain_inputs hc
  obtain ⟨x, hx, -⟩ := hfresh.apply (hinputs ▸ hnodup) (hinputs ▸ hpresent)
  have happ : Coins.applyAll ((ordered ++ [tx]).map (Transaction.entry K)) u = some x := by
    rw [List.map_append, Coins.applyAll_append_some]
    exact ⟨w, hw, Coins.applyAll_cons_some.mpr ⟨x, hx, rfl⟩⟩
  have hperm' : (ordered ++ [tx]).Perm (tx :: pool.snapshot) :=
    (List.perm_append_singleton tx ordered).trans (hperm.cons tx)
  exact (Coins.applicable_of_applyAll happ).perm (hperm'.map (Transaction.entry K))

theorem Coherent.accept (hn : (txs.map (Transaction.id K)).Nodup) (hsub : (ledger chain).Subperm txs)
    (hr : Replay K chain u t) (h : Coherent K txs chain u pool) {tx : Transaction} (htx : tx ∈ txs)
    (hc : isCoinbaseTransaction tx = false) {reason : MempoolRejectReason}
    (hacc : pool.accept tx u = .ok (reason, after)) : Coherent K txs chain u after := by
  rcases accept_ok hacc with ⟨-, rfl⟩ | ⟨-, hsnap, hres, hnew, hfits, -, w', heff, hwit⟩
  · exact h
  · obtain ⟨ordered, w, hperm, hw, heff'⟩ := buildEffectiveUtxo_ok (h.placeable hr)
    rw [heff', Except.ok.injEq, Option.some.injEq] at heff
    subst heff
    have hauth := authorized_of_validate hwit
    have hne : tx.points ≠ [] := by
      have := (shaped_of_validate hauth.valid).1
      simpa [Transaction.points] using this
    obtain ⟨k, hk⟩ := List.exists_mem_of_ne_nil _ hne
    have hsame : ∀ tx' ∈ ledger chain, tx'.id K = tx.id K → (tx'.entry K).inputs = tx.points := by
      intro tx' htx' hid
      obtain rfl := List.inj_on_of_nodup_map hn (hsub.subset htx') htx hid
      exact plain_inputs hc
    have hoff := offChain_of_present (ledger_ids_nodup hn hsub) hr h.offChain hperm hw hsame hk (hauth.present k hk)
    have happ := applicable_cons hperm hw hc hfits.toBaseFits hauth.nodup hauth.present hnew
      fun j hj he => hoff (he ▸ utxo_txid hr hj)
    refine ⟨?_, ?_, ?_, ?_, ?_, ?_⟩
    · rw [hsnap, List.forall_mem_cons]
      exact ⟨htx, h.inPlay⟩
    · rw [hsnap, List.forall_mem_cons]
      exact ⟨hc, h.plain⟩
    · rw [hsnap, List.forall_mem_cons]
      exact ⟨hne, h.spending⟩
    · rw [hsnap, List.forall_mem_cons, hres]
      exact ⟨fun k hk => Finset.mem_union_right _ (List.mem_toFinset.mpr hk),
        fun p hp k hk => Finset.mem_union_left _ (h.reserved p hp k hk)⟩
    · rw [hsnap, List.forall_mem_cons]
      exact ⟨hoff, h.offChain⟩
    · rw [hsnap]
      exact happ

/-! ## Replacement -/

/-- Whatever the pool was coherent with before, afterwards it is coherent with the new chain. -/
theorem Coherent.revalidate (hn : (txs.map (Transaction.id K)).Nodup) (hsub : (ledger more).Subperm txs)
    (hr : Replay K more u' t') (h : Coherent K txs chain u pool) (walk : Walk K) :
    Coherent K txs more u' (revalidateMempoolAfterReorg K walk pool more).2 :=
  revalidate_induction (fun _ he => coherent_nil he) hr
    (fun htx hcoh hacc => hcoh.accept hn hsub hr (h.inPlay _ htx) (h.plain _ htx) hacc) walk

/-! ## Relayed blocks -/

theorem ledger_append {chain : List Block} (hne : chain ≠ []) (more : List Block) :
    ledger (chain ++ more) = ledger chain ++ more.flatMap Block.transactions := by
  simp [ledger, List.tail_append_of_ne_nil hne]

theorem Coherent.extend (hn : (txs.map (Transaction.id K)).Nodup) (hsub : (ledger (chain ++ more)).Subperm txs)
    (hr : Replay K chain u t) (hr' : Replay K (chain ++ more) u' t') (h : Coherent K txs chain u pool)
    (hspare : ∀ block ∈ more, ∀ tx ∈ block.transactions, ∀ k ∈ tx.spends, k ∉ pool.reservedInputs) :
    Coherent K txs (chain ++ more) u' pool := by
  have hl := ledger_append hr.ne_nil more
  have hoff : ∀ tx ∈ pool.snapshot, tx.id K ∉ (ledger (chain ++ more)).map (Transaction.id K) := by
    intro tx htx hmem
    obtain ⟨tx', htx', hid⟩ := List.mem_map.mp hmem
    obtain rfl := List.inj_on_of_nodup_map hn (hsub.subset htx') (h.inPlay tx htx) hid
    rw [hl] at htx'
    rcases List.mem_append.mp htx' with hc | hm
    · exact h.offChain _ htx (List.mem_map_of_mem hc)
    · -- the block takes the inputs of the pool transaction it contains
      obtain ⟨block, hb, ht⟩ := List.mem_flatMap.mp hm
      obtain ⟨k, hk⟩ := List.exists_mem_of_ne_nil _ (h.spending _ htx)
      refine hspare block hb _ ht k ?_ (h.reserved _ htx k hk)
      simpa [Transaction.spends, h.plain _ htx] using hk
  have hstep : Coins.applyAll ((more.flatMap Block.transactions).map (Transaction.entry K)) u = some u' := by
    have hall := hr'.coins
    rw [hl, List.map_append, Coins.applyAll_append_some] at hall
    obtain ⟨w, hw, hall⟩ := hall
    rw [hr.coins, Option.some.injEq] at hw
    exact hw ▸ hall
  have hkeep : ∀ k ∈ Coins.spent (pool.snapshot.map (Transaction.entry K)), k ∈ u → k ∈ u' := by
    intro k hk hku
    refine Coins.mem_applyAll hstep (Or.inl hku) fun hks => ?_
    obtain ⟨e, he, hke⟩ := Coins.mem_spent.mp hk
    obtain ⟨tx, htx, rfl⟩ := List.mem_map.mp he
    obtain ⟨e', he', hke'⟩ := Coins.mem_spent.mp hks
    obtain ⟨tx', htx', rfl⟩ := List.mem_map.mp he'
    obtain ⟨block, hb, ht⟩ := List.mem_flatMap.mp htx'
    rw [plain_inputs (h.plain tx htx)] at hke
    exact hspare block hb tx' ht k hke' (h.reserved tx htx k hke)
  have hfresh : Coins.Fresh (pool.snapshot.map (Transaction.entry K)) u' := by
    refine ⟨(h.fresh hr).nodup, fun k hk hku => ?_⟩
    obtain ⟨e, he, hke⟩ := Coins.mem_created_keys.mp hk
    obtain ⟨tx, htx, rfl⟩ := List.mem_map.mp he
    exact hoff tx htx (entry_txid hke ▸ utxo_txid hr' hku)
  exact ⟨h.inPlay, h.plain, h.spending, h.reserved, hoff, h.applicable.transfer hkeep hfresh⟩

/-! ## Runs -/

def Node.Settled (txs : List Transaction) (node : Node K) : Prop :=
  ∃ chain u t, node.storage = some chain ∧ Replay K chain u t ∧ Coherent K txs chain u node.mempool

def Node.StoresWithin (txs : List Transaction) (node : Node K) : Prop :=
  ∀ chain, node.storage = some chain → (ledger chain).Subperm txs

/-- In the whole run, every transaction stored or submitted is one of `txs`. -/
def Node.RunsWithin (txs : List Transaction) : Node K → List (Call K) → Prop
  | node, [] => node.StoresWithin txs
  | node, call :: rest => node.StoresWithin txs ∧ (∀ tx, call = .acceptTransaction tx → tx ∈ txs) ∧
    (node.call call).RunsWithin txs rest

/-- The blocks that a relayed batch appends spend nothing that the pool has reserved. -/
def Node.Spares (node : Node K) (call : Call K) : Prop :=
  ∀ payload chain more, call = .handleBlocks payload → node.storage = some chain →
    (node.call call).storage = some (chain ++ more) → ∀ block ∈ more, ∀ tx ∈ block.transactions, ∀ k ∈ tx.spends,
      node.mempool.inputReserved k = false

def Node.RunSpares : Node K → List (Call K) → Prop
  | _, [] => True
  | node, call :: rest => node.Spares call ∧ (node.call call).RunSpares rest

theorem Node.Settled.step (hn : (txs.map (Transaction.id K)).Nodup) {node : Node K} {call : Call K}
    (h : node.Settled txs) (hwithin : (node.call call).StoresWithin txs)
    (hsubmit : ∀ tx, call = .acceptTransaction tx → tx ∈ txs) (hspare : node.Spares call)
    (hstores : node.StoresWithin txs) : (node.call call).Settled txs := by
  obtain ⟨chain, u, t, hstore, hr, hcoh⟩ := h
  have hloaded : ∀ {loaded : List Block}, node.storage.load K = .ok loaded → loaded = chain := by
    intro loaded hl
    rw [(load_ok.mp hl).1, Option.some.injEq] at hstore
    exact hstore
  have hsub := hstores chain hstore
  generalize hafter : node.call call = after at hwithin
  have hstep : Step node call after := hafter ▸ call_step node call
  cases hstep with
  | stay => exact ⟨chain, u, t, hstore, hr, hcoh⟩
  | @accept tx loaded u' t' reason pool hload hr' hc hacc =>
    obtain rfl := hloaded hload
    obtain ⟨rfl, rfl⟩ := hr'.unique hr
    exact ⟨loaded, u', t', hstore, hr, hcoh.accept hn hsub hr (hsubmit tx rfl) hc hacc⟩
  | mine _ hm =>
    obtain ⟨loaded, u₀, t₀, u', t', -, hr₀, ha, rfl⟩ := hm
    exact ⟨_, u', t', rfl, .snoc hr₀ ha, coherent_nil empty_snapshot⟩
  | @replace walk candidate loaded u' t' hload hr' _ _ =>
    exact ⟨candidate, u', t', rfl, hr', hcoh.revalidate hn (hwithin candidate rfl) hr' walk⟩
  | @relay payload blocks loaded more u' t' hload _ _ _ hr' =>
    obtain rfl := hloaded hload
    have hquiet := hspare payload loaded more rfl hstore (by rw [hafter])
    refine ⟨loaded ++ more, u', t', rfl, hr', hcoh.extend hn (hwithin _ rfl) hr hr' fun block hb tx ht k hk => ?_⟩
    simpa [Mempool.inputReserved] using hquiet block hb tx ht k hk

theorem Node.Settled.run (hn : (txs.map (Transaction.id K)).Nodup) : ∀ {calls : List (Call K)} {node : Node K},
    node.Settled txs → node.RunsWithin txs calls → node.RunSpares calls → (node.run calls).Settled txs
  | [], _, h, _, _ => h
  | call :: calls, node, h, hwithin, hspare => by
    have hnext : (node.call call).StoresWithin txs := by
      cases calls with
      | nil => exact hwithin.2.2
      | cons c cs => exact hwithin.2.2.1
    have hstep := h.step hn hnext hwithin.2.1 hspare.1 hwithin.1
    show ((node.call call).run calls).Settled txs
    exact Node.Settled.run hn hstep hwithin.2.2 hspare.2

/-- Starting with an empty pool, the pool applies to the stored chain after any calls, when no batch of relayed blocks
spends what the pool has reserved. -/
theorem pool_stays_applicable (hn : (txs.map (Transaction.id K)).Nodup) {node : Node K}
    (hstore : node.storage = some chain) (hvalid : validateCandidateChain K chain = .ok true)
    (hempty : node.mempool = Mempool.empty K) (calls : List (Call K)) (hwithin : node.RunsWithin txs calls)
    (hspare : node.RunSpares calls) :
    ∃ stored utxos ordered effective, (node.run calls).storage = some stored ∧
      rebuildUtxoSet K stored = .ok utxos ∧ (node.run calls).mempool.orderedTransactions utxos = .ok ordered ∧
      ordered.Perm (node.run calls).mempool.snapshot ∧
      (node.run calls).mempool.buildEffectiveUtxo utxos = .ok (some effective) := by
  obtain ⟨u, t, hr⟩ := candidate_iff.mp hvalid
  have hstart : node.Settled txs := ⟨chain, u, t, hstore, hr, coherent_nil (hempty ▸ empty_snapshot)⟩
  obtain ⟨stored, utxos, t', hs, hr', hcoh⟩ := hstart.run hn hwithin hspare
  obtain ⟨ordered, w, ho, hperm, -⟩ := orderedTransactions_ok (hcoh.placeable hr')
  obtain ⟨-, effective, -, -, heff⟩ := buildEffectiveUtxo_ok (hcoh.placeable hr')
  exact ⟨stored, utxos, ordered, effective, hs, rebuildUtxoSet_ok.mpr ⟨t', hr'⟩, ho, hperm, heff⟩

theorem storesWithin_of {node : Node K} (h : node.storage = some chain) (hs : (ledger chain).Sublist txs) :
    node.StoresWithin txs := by
  intro chain' h'
  rw [h, Option.some.injEq] at h'
  exact h' ▸ hs.subperm

theorem spares_of {node : Node K} {call : Call K} (h : node.storage = some chain)
    (hafter : (node.call call).storage = some (chain ++ more))
    (hall : ∀ block ∈ more, ∀ tx ∈ block.transactions, ∀ k ∈ tx.spends, node.mempool.inputReserved k = false) :
    node.Spares call := by
  intro payload chain' more' _ h' hafter'
  rw [h, Option.some.injEq] at h'
  rw [hafter, ← h', Option.some.injEq, List.append_cancel_left_eq] at hafter'
  exact hafter' ▸ hall

end

def toyPooled : Transaction := toySpend (toyCoinbase 1) 5

def toyInPlay : List Transaction := [toyCoinbase 1, toyCoinbase 2, toyPooled]

def toyQuiet : List (Call toyCrypto) :=
  [.acceptTransaction toyPooled, .handleBlocks (blockList [toyNext toyFirst [toyCoinbase 2]])]

theorem pool_stays_applicable_toy : ((toyNode [toyGenesis, toyFirst]).run toyQuiet).mempool.snapshot = [toyPooled] ∧
    ∃ stored utxos ordered effective, ((toyNode [toyGenesis, toyFirst]).run toyQuiet).storage = some stored ∧
      rebuildUtxoSet toyCrypto stored = .ok utxos ∧
      ((toyNode [toyGenesis, toyFirst]).run toyQuiet).mempool.orderedTransactions utxos = .ok ordered ∧
      ordered.Perm ((toyNode [toyGenesis, toyFirst]).run toyQuiet).mempool.snapshot ∧
      ((toyNode [toyGenesis, toyFirst]).run toyQuiet).mempool.buildEffectiveUtxo utxos = .ok (some effective) := by
  have hbefore : ((toyNode [toyGenesis, toyFirst]).call (.acceptTransaction toyPooled)).storage =
      some [toyGenesis, toyFirst] := by decide +kernel
  have hafter : (((toyNode [toyGenesis, toyFirst]).call (.acceptTransaction toyPooled)).call
      (.handleBlocks (blockList [toyNext toyFirst [toyCoinbase 2]]))).storage =
      some ([toyGenesis, toyFirst] ++ [toyNext toyFirst [toyCoinbase 2]]) := by decide +kernel
  refine ⟨by decide +kernel, pool_stays_applicable (show (toyInPlay.map (Transaction.id toyCrypto)).Nodup by decide +kernel)
    rfl (by decide +kernel) rfl toyQuiet ?_ ?_⟩
  · refine ⟨storesWithin_of rfl (by decide +kernel), fun tx he => ?_, storesWithin_of hbefore (by decide +kernel),
      (fun tx he => by cases he), storesWithin_of hafter (by decide +kernel)⟩
    cases he
    decide +kernel
  · exact ⟨(fun _ _ _ he => by cases he), spares_of hbefore hafter (by decide +kernel), trivial⟩

/-! ## A block that takes a transaction of the pool -/

def toyStranded : List (Call toyCrypto) :=
  [.acceptTransaction toyPooled, .handleBlocks (blockList [toyNext toyFirst [toyCoinbase 2, toyPooled]])]

theorem relayed_block_strands_pool : ¬ ∀ (K : Crypto) (txs : List Transaction) (node : Node K) (chain : List Block)
    (calls : List (Call K)), (txs.map (Transaction.id K)).Nodup → node.storage = some chain →
    validateCandidateChain K chain = .ok true → node.mempool = Mempool.empty K → node.RunsWithin txs calls →
    ∃ stored utxos ordered, (node.run calls).storage = some stored ∧ rebuildUtxoSet K stored = .ok utxos ∧
      (node.run calls).mempool.orderedTransactions utxos = .ok ordered ∧
      ordered.Perm (node.run calls).mempool.snapshot := by
  intro h
  have hbefore : ((toyNode [toyGenesis, toyFirst]).call (.acceptTransaction toyPooled)).storage =
      some [toyGenesis, toyFirst] := by decide +kernel
  have hafter : (((toyNode [toyGenesis, toyFirst]).call (.acceptTransaction toyPooled)).call
      (.handleBlocks (blockList [toyNext toyFirst [toyCoinbase 2, toyPooled]]))).storage =
      some [toyGenesis, toyFirst, toyNext toyFirst [toyCoinbase 2, toyPooled]] := by decide +kernel
  obtain ⟨stored, utxos, ordered, hs, hu, ho, hperm⟩ := h toyCrypto toyInPlay (toyNode [toyGenesis, toyFirst])
    [toyGenesis, toyFirst] toyStranded (by decide +kernel) rfl (by decide +kernel) rfl
    ⟨storesWithin_of rfl (by decide +kernel), (fun tx he => by cases he; decide +kernel),
      storesWithin_of hbefore (by decide +kernel), (fun tx he => by cases he),
      storesWithin_of hafter (by decide +kernel)⟩
  simp only [Node.run, toyStranded, List.foldl_cons, List.foldl_nil, hafter, Option.some.injEq] at hs
  subst hs
  have hempty : (rebuildUtxoSet toyCrypto [toyGenesis, toyFirst, toyNext toyFirst [toyCoinbase 2, toyPooled]] >>=
      ((toyNode [toyGenesis, toyFirst]).run toyStranded).mempool.orderedTransactions) = .ok [] := by decide +kernel
  rw [bind_ok.mpr ⟨utxos, hu, ho⟩, Except.ok.injEq] at hempty
  have hlen := hperm.length_eq
  rw [hempty] at hlen
  exact absurd hlen (by decide +kernel)

end Caesar
