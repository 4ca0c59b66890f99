import Caesar.OrderSound

/-!
# What `remove` leaves

The set that `remove` computes is what is reachable from the transaction by
spending inside the pool, its loop ends whatever the references look like, and
what it leaves can be ordered whenever the whole pool could.
-/

namespace Caesar

open Codec

section
variable {K : Crypto}

/-! ## The loop ends -/

/-- The `while` loop of `remove`, from a set of ids to the set it ends with. -/
inductive RemovalRun (entries : List (Hash256 × Transaction)) : Finset Hash256 → Finset Hash256 → Prop
  | done {removal removal'} : removalPass entries removal false = (removal', false) → RemovalRun entries removal removal'
  | next {removal removal' last} : removalPass entries removal false = (removal', true) →
    RemovalRun entries removal' last → RemovalRun entries removal last

theorem removalLoop_run (entries : List (Hash256 × Transaction)) {passes : Nat} {removal : Finset Hash256}
    (h : ((entries.map Prod.fst).toFinset \ removal).card < passes) :
    RemovalRun entries removal (removalLoop entries passes removal) := by
  induction passes generalizing removal with
  | zero => exact absurd h (Nat.not_lt_zero _)
  | succ passes ih =>
    unfold removalLoop
    cases hpass : removalPass entries removal false with
    | mk removal' changed =>
      cases changed with
      | false => exact .done hpass
      | true =>
        have hless := removalPass_card hpass
        exact .next hpass (ih (by omega))

theorem RemovalRun.unique {entries : List (Hash256 × Transaction)} {removal a b : Finset Hash256}
    (ha : RemovalRun entries removal a) (hb : RemovalRun entries removal b) : a = b := by
  induction ha with
  | done hpass =>
    cases hb with
    | done hpass' => exact (Prod.mk.inj (hpass.symm.trans hpass')).1
    | next hpass' _ => cases hpass.symm.trans hpass'
  | next hpass _ ih =>
    cases hb with
    | done hpass' => cases hpass.symm.trans hpass'
    | next hpass' hrest =>
      obtain ⟨rfl, -⟩ := Prod.mk.inj (hpass.symm.trans hpass')
      exact ih hrest

/-! ## Reachability -/

/-- `child` is in the pool and spends an output of `parent`. -/
def SpendsInside (pool : Mempool K) (parent child : Transaction) : Prop :=
  child ∈ pool.snapshot ∧ ∃ input ∈ child.inputs, input.previousTxid = parent.id K

theorem mem_walk_entries {pool : Mempool K} (walk : RemovalWalk K) {id : Hash256} {tx : Transaction} :
    (id, tx) ∈ walk.entries pool ↔ tx ∈ pool.snapshot ∧ id = tx.id K := by
  rw [(walk.perm pool).mem_iff, List.mem_map]
  constructor
  · intro ⟨entry, hentry, he⟩
    obtain ⟨rfl, rfl⟩ := Prod.mk.inj he
    exact ⟨List.mem_map.mpr ⟨entry, hentry, rfl⟩, (keyed_id (AList.mem_lookup_iff.mpr hentry)).2⟩
  · intro ⟨htx, hid⟩
    obtain ⟨entry, hentry, rfl⟩ := List.mem_map.mp htx
    refine ⟨entry, hentry, ?_⟩
    rw [hid, ← (keyed_id (AList.mem_lookup_iff.mpr hentry)).2]

theorem eq_of_snapshot_id {pool : Mempool K} {a b : Transaction} (ha : a ∈ pool.snapshot) (hb : b ∈ pool.snapshot)
    (h : a.id K = b.id K) : a = b :=
  List.inj_on_of_nodup_map (snapshot_ids_nodup pool) ha hb h

theorem descends_iff {pool : Mempool K} (walk : RemovalWalk K) {root : Transaction} (hroot : root ∈ pool.snapshot)
    {id : Hash256} :
    Descends (walk.entries pool) (root.id K) id ↔
      ∃ tx ∈ pool.snapshot, tx.id K = id ∧ Relation.ReflTransGen (SpendsInside pool) root tx := by
  constructor
  · intro h
    induction h with
    | root => exact ⟨root, hroot, rfl, .refl⟩
    | @child id child input hmem hin _ ih =>
      obtain ⟨parent, -, hparent, hreached⟩ := ih
      obtain ⟨hchild, rfl⟩ := (mem_walk_entries walk).mp hmem
      exact ⟨child, hchild, rfl, hreached.tail ⟨hchild, input, hin, hparent.symm⟩⟩
  · intro h
    obtain ⟨tx, -, rfl, hreached⟩ := h
    induction hreached with
    | refl => exact .root
    | tail _ hstep ih =>
      obtain ⟨hchild, input, hin, hprev⟩ := hstep
      refine .child ((mem_walk_entries walk).mpr ⟨hchild, rfl⟩) hin ?_
      rw [hprev]
      exact ih

def Reached (pool : Mempool K) (root : Transaction) (removal : Finset Hash256) : Prop :=
  ∀ id, id ∈ removal ↔ ∃ tx ∈ pool.snapshot, tx.id K = id ∧ Relation.ReflTransGen (SpendsInside pool) root tx

theorem Reached.mem_iff {pool : Mempool K} {root tx : Transaction} {removal : Finset Hash256}
    (h : Reached pool root removal) (htx : tx ∈ pool.snapshot) :
    tx.id K ∈ removal ↔ Relation.ReflTransGen (SpendsInside pool) root tx := by
  rw [h]
  constructor
  · intro ⟨t, ht, hid, hreached⟩
    rwa [eq_of_snapshot_id ht htx hid] at hreached
  · intro hreached
    exact ⟨tx, htx, rfl, hreached⟩

theorem Reached.closed {pool : Mempool K} {root tx : Transaction} {removal : Finset Hash256}
    (h : Reached pool root removal) (htx : tx ∈ pool.snapshot) (hkept : tx.id K ∉ removal) :
    ∀ input ∈ tx.inputs, input.previousTxid ∉ removal := by
  intro input hin hremoved
  obtain ⟨parent, -, hid, hreached⟩ := (h _).mp hremoved
  exact hkept ((h.mem_iff htx).mpr (hreached.tail ⟨htx, input, hin, hid.symm⟩))

/-! ## The rest of the pool in order -/

theorem outputsAt_txid {txid : Hash256} {i : Nat} {outputs : List TransactionOutput} {k : OutPoint}
    (h : k ∈ (outputsAt txid i outputs).map Prod.fst) : k.txid = txid := by
  induction outputs generalizing i with
  | nil => simp [outputsAt] at h
  | cons output rest ih =>
    rw [outputsAt_cons, List.map_cons, List.mem_cons] at h
    obtain rfl | h := h
    · rfl
    · exact ih h

theorem applyAll_without {txs : List Transaction} {u w : UTXOSet} {removal : Finset Hash256}
    (hclosed : ∀ tx ∈ txs, tx.id K ∉ removal → ∀ input ∈ tx.inputs, input.previousTxid ∉ removal)
    (hfresh : Coins.Fresh (txs.map (Transaction.poolEntry K)) u)
    (h : Coins.applyAll (txs.map (Transaction.poolEntry K)) u = some w) :
    ∃ w', Coins.applyAll ((txs.filter fun tx => tx.id K ∉ removal).map (Transaction.poolEntry K)) u = some w' := by
  have hfilter : (txs.filter fun tx => tx.id K ∉ removal).map (Transaction.poolEntry K) =
      (txs.map (Transaction.poolEntry K)).filter fun e => e.id ∉ removal := by
    rw [List.filter_map]
    rfl
  rw [hfilter]
  refine Coins.applyAll_filter h ?_ (fun _ _ hk => hk) (hfresh.sublist List.filter_sublist)
  intro e he hkept d hd hleft k hk hkey
  obtain ⟨tx, htx, rfl⟩ := List.mem_map.mp he
  obtain ⟨parent, -, rfl⟩ := List.mem_map.mp hd
  obtain ⟨input, hin, rfl⟩ := List.mem_map.mp hk
  have htxid : input.point.txid = parent.id K := outputsAt_txid hkey
  have hin' := hclosed tx htx (of_decide_eq_true hkept) input hin
  rw [show input.previousTxid = parent.id K from htxid] at hin'
  simp only [decide_eq_false_iff_not, not_not] at hleft
  exact hin' hleft

theorem Mempool.snapshot_nodup (pool : Mempool K) : pool.snapshot.Nodup := (snapshot_ids_nodup pool).of_map _

theorem remove_spec {pool : Mempool K} (h : pool.Consistent) (walk : RemovalWalk K) {root : Transaction}
    (hroot : root ∈ pool.snapshot) :
    ∃ (removal : Finset Hash256) (after : Mempool K), RemovalRun (walk.entries pool) {root.id K} removal ∧
      pool.remove walk (root.id K) = (.ok true, after) ∧ Reached pool root removal ∧
      after.snapshot.Perm (pool.snapshot.filter fun tx => tx.id K ∉ removal) := by
  have hcontains : pool.contains (root.id K) = true := contains_iff.mpr ⟨root, hroot, rfl⟩
  have hentry : root.id K ∈ (walk.entries pool).map Prod.fst :=
    List.mem_map.mpr ⟨(root.id K, root), (mem_walk_entries walk).mpr ⟨hroot, rfl⟩, rfl⟩
  refine ⟨removalLoop (walk.entries pool) (walk.entries pool).length {root.id K}, (pool.remove walk (root.id K)).2,
    removalLoop_run _ ?_, ?_, ?_, ?_⟩
  · have hlen := List.toFinset_card_le ((walk.entries pool).map Prod.fst)
    rw [List.length_map] at hlen
    refine Nat.lt_of_lt_of_le (Finset.card_lt_card ?_) hlen
    exact Finset.sdiff_ssubset (Finset.singleton_subset_iff.mpr (List.mem_toFinset.mpr hentry))
      (Finset.singleton_nonempty _)
  · rw [remove_eq h, if_pos hcontains]
  · intro id
    rw [mem_removalLoop hentry, descends_iff walk hroot]
  · rw [List.perm_ext_iff_of_nodup (Mempool.snapshot_nodup _) (pool.snapshot_nodup.filter _)]
    intro tx
    rw [mem_remove h, List.mem_filter, decide_eq_true_iff, mem_removalLoop hentry]
    simp [hcontains]

theorem remove_keeps_order {pool : Mempool K} (h : pool.Consistent) {root : Transaction}
    (hroot : root ∈ pool.snapshot) {removal : Finset Hash256} {after : Mempool K} (hremoval : Reached pool root removal)
    (hafter : after.snapshot.Perm (pool.snapshot.filter fun tx => tx.id K ∉ removal)) {u : UTXOSet}
    (hnew : ∀ k ∈ u, ∀ tx ∈ pool.snapshot, k.txid ≠ tx.id K) {ordered : List Transaction}
    (hordered : pool.orderedTransactions u = .ok ordered) (hwhole : ordered.Perm pool.snapshot) :
    ∃ rest : List Transaction, after.orderedTransactions u = .ok rest ∧ rest.Perm after.snapshot := by
  have hfresh := (poolEntries_fresh hnew).perm (hwhole.map (Transaction.poolEntry K)).symm
  have hne : ordered ≠ [] := by
    intro hnil
    rw [hnil] at hwhole
    rw [hwhole.symm.eq_nil] at hroot
    cases hroot
  have hnodup : ∀ e ∈ ordered.map (Transaction.poolEntry K), e.inputs.Nodup := by
    intro e he
    obtain ⟨tx, htx, rfl⟩ := List.mem_map.mp he
    exact h.points_nodup (hwhole.subset htx)
  obtain ⟨w, hw⟩ := Coins.applyAll_of_inOrder (ordered_sound hordered hne).2 hnodup hfresh
  obtain ⟨w', hw'⟩ := applyAll_without (fun tx htx => hremoval.closed (hwhole.subset htx)) hfresh hw
  have hperm : ((ordered.filter fun tx => tx.id K ∉ removal).map (Transaction.poolEntry K)).Perm
      (after.snapshot.map (Transaction.poolEntry K)) :=
    ((hwhole.filter _).trans hafter.symm).map _
  have hfreshAfter := (hfresh.sublist (List.filter_sublist.map _)).perm hperm
  obtain ⟨rest, -, hrest, hall, -⟩ :=
    orderedTransactions_complete ((Coins.applicable_of_applyAll hw').perm hperm) hfreshAfter
  exact ⟨rest, hrest, hall⟩

theorem remove_takes_descendants :
    (∀ {pool : Mempool K}, pool.Consistent → ∀ (walk : RemovalWalk K) (root : Transaction), root ∈ pool.snapshot →
      ∃ (removal : Finset Hash256) (after : Mempool K), RemovalRun (walk.entries pool) {root.id K} removal ∧
        pool.remove walk (root.id K) = (.ok true, after) ∧
        (∀ tx ∈ pool.snapshot, tx ∈ after.snapshot ↔ tx.id K ∉ removal) ∧
        (∀ tx : Transaction, tx ∈ after.snapshot ↔
          tx ∈ pool.snapshot ∧ ¬ Relation.ReflTransGen (SpendsInside pool) root tx) ∧
        after.reservedInputs = (after.snapshot.flatMap Transaction.points).toFinset ∧
        after.mempoolBytes = weight after.snapshot ∧ after.Consistent ∧
        ∀ (u : UTXOSet) (ordered : List Transaction), (∀ k ∈ u, ∀ tx ∈ pool.snapshot, k.txid ≠ tx.id K) →
          pool.orderedTransactions u = .ok ordered → ordered.Perm pool.snapshot →
          ∃ rest : List Transaction, after.orderedTransactions u = .ok rest ∧ rest.Perm after.snapshot) ∧
    ∀ (entries : List (Hash256 × Transaction)) (removal : Finset Hash256),
      ∃! last : Finset Hash256, RemovalRun entries removal last := by
  constructor
  · intro pool h walk root hroot
    obtain ⟨removal, after, hrun, hremove, hremoval, hperm⟩ := remove_spec h walk hroot
    have hconsistent : after.Consistent := by
      have hc := h.remove walk (root.id K)
      rwa [hremove] at hc
    refine ⟨removal, after, hrun, hremove, ?_, ?_, hconsistent.reserved, hconsistent.bytes, hconsistent, ?_⟩
    · intro tx htx
      rw [hperm.mem_iff, List.mem_filter, decide_eq_true_iff]
      simp [htx]
    · intro tx
      rw [hperm.mem_iff, List.mem_filter, decide_eq_true_iff]
      constructor
      · intro ⟨htx, hkept⟩
        exact ⟨htx, fun hreached => hkept ((hremoval.mem_iff htx).mpr hreached)⟩
      · intro ⟨htx, hfar⟩
        exact ⟨htx, fun hremoved => hfar ((hremoval.mem_iff htx).mp hremoved)⟩
    · intro u ordered hnew hordered hwhole
      exact remove_keeps_order h hroot hremoval hperm hnew hordered hwhole
  · intro entries removal
    exact ⟨_, removalLoop_run entries (Nat.lt_succ_self _), fun last hlast =>
      hlast.unique (removalLoop_run entries (Nat.lt_succ_self _))⟩

/-- Some order of the map and of the set; any other gives the same pool. -/
noncomputable def someWalk (K : Crypto) : RemovalWalk K where
  entries pool := pool.transactions.entries.map fun entry => (entry.1, entry.2)
  perm _ := .refl _
  ids s := s.toList
  ids_nodup s := s.nodup_toList
  mem_ids _ _ := Finset.mem_toList

theorem forall_mem_of_keys {u : UTXOSet} {p : OutPoint → Prop} (h : ∀ k ∈ u.keys, p k) : ∀ k ∈ u, p k :=
  fun k hk => h k (Finmap.mem_keys.mpr hk)

end

/-! ## Three generations -/

def toyParent : Transaction := toySpend (toyCoinbase 1) 5

def toyChild : Transaction := toySpend toyParent 4

def toyGrandchild : Transaction := toySpend toyChild 3

def toyLine : Mempool toyCrypto :=
  Mempool.after [.accept toyParent toyUtxos, .accept toyChild toyUtxos, .accept toyGrandchild toyUtxos]

theorem toyParent_spends_outside : ∀ tx ∈ toyLine.snapshot, ¬ SpendsInside toyLine tx toyParent := by
  have hforeign : ∀ tx ∈ toyLine.snapshot, ∀ input ∈ toyParent.inputs, input.previousTxid ≠ tx.id toyCrypto := by
    decide +kernel
  rintro tx htx ⟨-, input, hin, hprev⟩
  exact hforeign tx htx input hin hprev

-- the child takes the grandchild with it, and the parent stays
theorem remove_takes_descendants_toy : toyLine.Consistent ∧ ∃ after : Mempool toyCrypto,
    toyLine.remove (someWalk toyCrypto) (toyChild.id toyCrypto) = (.ok true, after) ∧
      toyParent ∈ after.snapshot ∧ toyChild ∉ after.snapshot ∧ toyGrandchild ∉ after.snapshot ∧
      ∃ rest : List Transaction, after.orderedTransactions toyUtxos = .ok rest ∧ rest.Perm after.snapshot := by
  have hpool : toyLine.Consistent := after_consistent _
  have hroot : toyChild ∈ toyLine.snapshot := by decide +kernel
  have hparent : toyParent ∈ toyLine.snapshot := by decide +kernel
  have hchild : SpendsInside toyLine toyChild toyGrandchild :=
    ⟨by decide +kernel, ⟨toyChild.id toyCrypto, 0⟩, List.mem_singleton_self _, rfl⟩
  have hfar : ¬ Relation.ReflTransGen (SpendsInside toyLine) toyChild toyParent := by
    intro hreached
    obtain heq | ⟨last, hlast, hspends⟩ := Relation.ReflTransGen.cases_tail hreached
    · revert heq
      decide +kernel
    · refine toyParent_spends_outside last ?_ hspends
      obtain rfl | ⟨_, _, hmem, -⟩ := Relation.ReflTransGen.cases_tail hlast
      · exact hroot
      · exact hmem
  have hnew : ∀ k ∈ toyUtxos, ∀ tx ∈ toyLine.snapshot, k.txid ≠ tx.id toyCrypto :=
    forall_mem_of_keys (by decide +kernel)
  obtain ⟨ordered, hordered⟩ := orderedTransactions_returns toyLine toyUtxos
  have hne : ordered ≠ [] := by
    rintro rfl
    revert hordered
    decide +kernel
  obtain ⟨-, after, -, hremove, -, hmem, -, -, -, horder⟩ :=
    remove_takes_descendants.1 hpool (someWalk toyCrypto) toyChild hroot
  refine ⟨hpool, after, hremove, (hmem _).mpr ⟨hparent, hfar⟩, ?_, ?_,
    horder toyUtxos ordered hnew hordered (ordered_sound hordered hne).1⟩
  · exact fun hin => ((hmem toyChild).mp hin).2 .refl
  · exact fun hin => ((hmem toyGrandchild).mp hin).2 (.single hchild)

end Caesar
