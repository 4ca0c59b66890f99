import Caesar.Mempool
import Caesar.LedgerSound

/-!
# The pool and its order

`orderedTransactions` is greedy: it takes whatever is ready. On a pool that
applies in some order and creates only new points, greed never blocks, so the
order it finds is complete (`orderedTransactions_ok`).
-/

namespace Caesar

open Codec

section
variable {K : Crypto}

/-! ## Entries -/

theorem mem_snapshot {pool : Mempool K} {tx : Transaction} :
    tx ∈ pool.snapshot ↔ ∃ id, pool.transactions.lookup id = some tx := by
  simp only [Mempool.snapshot, List.mem_map, Sigma.exists]
  refine ⟨?_, ?_⟩
  · intro h
    obtain ⟨id, tx', hmem, rfl⟩ := h
    exact ⟨id, AList.mem_lookup_iff.mpr hmem⟩
  · intro h
    obtain ⟨id, hl⟩ := h
    exact ⟨id, tx, AList.mem_lookup_iff.mp hl, rfl⟩

theorem keyed_id {pool : Mempool K} {id : Hash256} {tx : Transaction} (h : pool.transactions.lookup id = some tx) :
    tx.Fits uint32Max ∧ id = tx.id K := by
  obtain ⟨hid, data, hdata⟩ := pool.keyed id tx h
  exact ⟨(serializeFullBinary_ok.mp hdata).1, ((txid_ok K tx id).mp hid).2⟩

theorem snapshot_fits {pool : Mempool K} {tx : Transaction} (h : tx ∈ pool.snapshot) : tx.Fits uint32Max := by
  obtain ⟨id, hl⟩ := mem_snapshot.mp h
  exact (keyed_id hl).1

theorem snapshot_ids (pool : Mempool K) : pool.snapshot.map (Transaction.id K) = pool.transactions.keys := by
  rw [Mempool.snapshot, List.map_map, AList.keys, List.keys]
  apply List.map_congr_left
  intro entry hentry
  have hlookup : pool.transactions.lookup entry.1 = some entry.2 := AList.mem_lookup_iff.mpr hentry
  exact (keyed_id hlookup).2.symm

theorem snapshot_ids_nodup (pool : Mempool K) : (pool.snapshot.map (Transaction.id K)).Nodup := by
  rw [snapshot_ids]
  exact pool.transactions.nodupKeys

theorem contains_iff {pool : Mempool K} {id : Hash256} :
    pool.contains id = true ↔ ∃ tx ∈ pool.snapshot, tx.id K = id := by
  simp only [Mempool.contains, decide_eq_true_eq, AList.mem_keys, ← snapshot_ids, List.mem_map]

theorem insert_snapshot {pool : Mempool K} {id : Hash256} {tx : Transaction} {data : Bytes}
    (hid : tx.txid K = .ok id) (hdata : tx.serializeFullBinary = .ok data) (hnew : pool.contains id = false) :
    (pool.insert id tx data hid hdata).snapshot = tx :: pool.snapshot := by
  have hn : id ∉ pool.transactions := by simpa [Mempool.contains] using hnew
  rw [Mempool.snapshot, Mempool.insert, AList.entries_insert_of_notMem hn]
  rfl

theorem empty_snapshot : (Mempool.empty K).snapshot = [] := rfl

theorem size_eq (pool : Mempool K) : pool.size = pool.snapshot.length := by
  simp [Mempool.size, Mempool.snapshot]

/-! ## Ordering -/

structure Orderable (K : Crypto) (pending : List (Hash256 × Transaction)) : Prop where
  keyed : ∀ p ∈ pending, p.2.txid K = .ok p.1
  nodup : (pending.map Prod.fst).Nodup

theorem pending_perm (pool : Mempool K) :
    pool.pending.Perm (pool.transactions.entries.map fun entry => (entry.1, entry.2)) :=
  List.perm_insertionSort ..

theorem pending_snapshot (pool : Mempool K) : (pool.pending.map Prod.snd).Perm pool.snapshot := by
  have h := (pending_perm pool).map Prod.snd
  rw [List.map_map] at h
  exact h

theorem pending_nodup (pool : Mempool K) : (pool.pending.map Prod.fst).Nodup := by
  have h := (pending_perm pool).map Prod.fst
  rw [List.map_map] at h
  exact h.nodup_iff.mpr pool.transactions.nodupKeys

theorem pending_orderable (pool : Mempool K) : Orderable K pool.pending := by
  refine ⟨?_, pending_nodup pool⟩
  intro p hp
  obtain ⟨entry, he, rfl⟩ := List.mem_map.mp ((pending_perm pool).subset hp)
  exact (pool.keyed _ _ (AList.mem_lookup_iff.mpr he)).1

theorem plain_inputs {tx : Transaction} (h : isCoinbaseTransaction tx = false) : (tx.entry K).inputs = tx.points := by
  simp [Transaction.entry, h]

/-- The pool spends every input, also where a block would see a coinbase. -/
def Transaction.poolEntry (K : Crypto) (tx : Transaction) : Coins.Entry Hash256 OutPoint TransactionOutput :=
  { tx.entry K with inputs := tx.points }

theorem poolEntry_eq {tx : Transaction} (h : isCoinbaseTransaction tx = false) : tx.poolEntry K = tx.entry K := by
  rw [Transaction.poolEntry, ← plain_inputs (K := K) h]

theorem map_poolEntry {txs : List Transaction} (h : ∀ tx ∈ txs, isCoinbaseTransaction tx = false) :
    txs.map (Transaction.poolEntry K) = txs.map (Transaction.entry K) :=
  List.map_congr_left fun tx htx => poolEntry_eq (h tx htx)

theorem spendAndAdd_eq {tx : Transaction} (hf : tx.BaseFits uint32Max) (u : UTXOSet) :
    spendAndAdd K tx u = .ok (Coins.apply (tx.poolEntry K) u) := by
  have hlen : 0 + tx.outputs.length ≤ 2 ^ 32 := by have := hf.outputs; unfold uint32Max at this; omega
  rw [spendAndAdd, spendInputs_eq, Coins.apply, Transaction.poolEntry, Transaction.points]
  cases Coins.spendAll (tx.inputs.map TransactionInput.point) u with
  | none => rfl
  | some w =>
    simp only [(txid_ok K tx _).mpr ⟨hf, rfl⟩, Option.bind_some, addOutputs_eq hlen]
    rfl

theorem Orderable.apply_of_spendAndAdd {pending : List (Hash256 × Transaction)} (hP : Orderable K pending)
    {id : Hash256} {tx : Transaction} (hmem : (id, tx) ∈ pending) {u w : UTXOSet} :
    spendAndAdd K tx u = .ok (some w) ↔ Coins.apply (tx.poolEntry K) u = some w := by
  rw [spendAndAdd_eq ((txid_ok K tx id).mp (hP.keyed _ hmem)).1, Except.ok.injEq]

/-- Between two steps: `left` is what is not taken yet. -/
structure Collecting (pending left : List (Hash256 × Transaction)) (st : OrderState) : Prop where
  sub : ∀ p ∈ left, p ∈ pending
  remaining : ∀ id, id ∈ st.remaining ↔ id ∈ left.map Prod.fst
  nodup : (left.map Prod.fst).Nodup
  complete : (st.ordered ++ left.map Prod.snd).Perm (pending.map Prod.snd)

/-- And what is taken applies. -/
structure Taking (K : Crypto) (u : UTXOSet) (pending left : List (Hash256 × Transaction)) (st : OrderState) :
    Prop extends Collecting pending left st where
  taken : Coins.applyAll (st.ordered.map (Transaction.poolEntry K)) u = some st.working

/-- Nothing that is left can be blocked. -/
structure Ordering (K : Crypto) (u : UTXOSet) (pending left : List (Hash256 × Transaction)) (st : OrderState) :
    Prop extends Taking K u pending left st where
  applicable : Coins.Applicable (left.map fun p => p.2.poolEntry K) st.working
  fresh : Coins.Fresh (left.map fun p => p.2.poolEntry K) st.working

variable {u : UTXOSet} {pending left : List (Hash256 × Transaction)} {st : OrderState}

theorem collecting_start (hn : (pending.map Prod.fst).Nodup) :
    Collecting pending pending ⟨u, [], (pending.map Prod.fst).toFinset⟩ :=
  ⟨fun _ hp => hp, fun _ => List.mem_toFinset, hn, .refl _⟩

theorem taking_start (hP : Orderable K pending) :
    Taking K u pending pending ⟨u, [], (pending.map Prod.fst).toFinset⟩ :=
  ⟨collecting_start hP.nodup, rfl⟩

theorem Collecting.split (hn : (pending.map Prod.fst).Nodup) (h : Collecting pending left st) {id : Hash256}
    {tx : Transaction} (hmem : (id, tx) ∈ pending) (hleft : id ∈ st.remaining) :
    ∃ left', left.Perm ((id, tx) :: left') := by
  obtain ⟨q, hq, he⟩ := List.mem_map.mp ((h.remaining id).mp hleft)
  obtain rfl : q = (id, tx) := List.inj_on_of_nodup_map hn (h.sub q hq) hmem he
  exact ⟨left.erase (id, tx), List.perm_cons_erase hq⟩

theorem Collecting.take (h : Collecting pending left st) {left' : List (Hash256 × Transaction)} {id : Hash256}
    {tx : Transaction} (hperm : left.Perm ((id, tx) :: left')) (working : UTXOSet) :
    Collecting pending left' ⟨working, st.ordered ++ [tx], st.remaining.erase id⟩ := by
  have hkeys := hperm.map Prod.fst
  have hsnd := hperm.map Prod.snd
  rw [List.map_cons] at hkeys hsnd
  have hnd := hkeys.nodup_iff.mp h.nodup
  rw [List.nodup_cons] at hnd
  refine ⟨fun p hp => h.sub p (hperm.symm.subset (List.mem_cons_of_mem _ hp)), fun id' => ?_, hnd.2, ?_⟩
  · rw [Finset.mem_erase, h.remaining, hkeys.mem_iff, List.mem_cons]
    refine ⟨?_, ?_⟩
    · intro hm
      exact hm.2.resolve_left hm.1
    · intro hm
      exact ⟨fun he => hnd.1 (he ▸ hm), Or.inr hm⟩
  · rw [List.append_assoc]
    exact ((List.Perm.append_left st.ordered hsnd).symm).trans h.complete

theorem Taking.take (h : Taking K u pending left st) {left' : List (Hash256 × Transaction)} {id : Hash256}
    {tx : Transaction} (hperm : left.Perm ((id, tx) :: left')) {working : UTXOSet}
    (hw : Coins.apply (tx.poolEntry K) st.working = some working) :
    Taking K u pending left' ⟨working, st.ordered ++ [tx], st.remaining.erase id⟩ := by
  refine ⟨h.toCollecting.take hperm working, ?_⟩
  rw [List.map_append, Coins.applyAll_append_some]
  exact ⟨_, h.taken, Coins.applyAll_cons_some.mpr ⟨working, hw, rfl⟩⟩

theorem Ordering.take (hP : Orderable K pending) (h : Ordering K u pending left st) {id : Hash256} {tx : Transaction}
    (hmem : (id, tx) ∈ pending) (hleft : id ∈ st.remaining) (hready : ∀ k ∈ tx.points, k ∈ st.working) :
    ∃ working left', spendAndAdd K tx st.working = .ok (some working) ∧ left'.length < left.length ∧
      Ordering K u pending left' ⟨working, st.ordered ++ [tx], st.remaining.erase id⟩ := by
  obtain ⟨left', hperm⟩ := h.split hP.nodup hmem hleft
  have hentries := hperm.map fun p => p.2.poolEntry K
  obtain ⟨working, hw, happ, hfresh⟩ := (h.applicable.perm hentries).take (h.fresh.perm hentries) hready
  refine ⟨working, left', (hP.apply_of_spendAndAdd hmem).mpr hw, ?_, h.toTaking.take hperm hw, happ, hfresh⟩
  rw [hperm.length_eq]
  simp

/-! ### What the loop returns in any case

What one taken transaction keeps holds of the state the loop ends in.
-/

section
variable {Q : OrderState → Prop} (htake : ∀ {st id tx working}, (id, tx) ∈ pending → id ∈ st.remaining →
  spendAndAdd K tx st.working = .ok (some working) → Q st → Q ⟨working, st.ordered ++ [tx], st.remaining.erase id⟩)
include htake

theorem orderPass_induction : ∀ {l : List (Hash256 × Transaction)} {st st' : OrderState} {progressed progressed' : Bool},
    (∀ p ∈ l, p ∈ pending) → Q st → orderPass K l st progressed = .ok (some (st', progressed')) → Q st'
  | [], st, st', _, _, _, h, hpass => by
    simp only [orderPass, Except.ok.injEq, Option.some.injEq, Prod.mk.injEq] at hpass
    exact hpass.1 ▸ h
  | (id, tx) :: l, st, st', _, _, hl, h, hpass => by
    have hl' : ∀ p ∈ l, p ∈ pending := fun p hp => hl p (List.mem_cons_of_mem _ hp)
    rw [orderPass] at hpass
    split at hpass
    · exact orderPass_induction hl' h hpass
    · rename_i hrem
      split at hpass
      · exact orderPass_induction hl' h hpass
      · obtain ⟨working, hw, hpass⟩ := ifSome_ok.mp hpass
        exact orderPass_induction hl' (htake (hl _ (by simp)) (not_not.mp hrem) hw h) hpass

theorem orderLoop_induction : ∀ {passes : Nat} {st : OrderState} {ordered : List Transaction}, Q st →
    orderLoop K pending passes st = .ok ordered → ordered = [] ∨ ∃ st', Q st' ∧ st'.remaining = ∅ ∧ st'.ordered = ordered
  | 0, st, ordered, h, hloop => by
    rw [orderLoop, Except.ok.injEq] at hloop
    split at hloop
    · rename_i hrem
      exact Or.inr ⟨st, h, hrem, hloop⟩
    · exact Or.inl hloop.symm
  | passes + 1, st, ordered, h, hloop => by
    rw [orderLoop] at hloop
    split at hloop
    · rename_i hrem
      exact Or.inr ⟨st, h, hrem, Except.ok.inj hloop⟩
    · obtain ⟨r, hpass, hloop⟩ := bind_ok.mp hloop
      cases r with
      | none => exact Or.inl (pure_ok.mp hloop).symm
      | some r =>
        obtain ⟨st', progressed⟩ := r
        simp only at hloop
        split at hloop
        · exact Or.inl (pure_ok.mp hloop).symm
        · exact orderLoop_induction (orderPass_induction htake (fun p hp => hp) h hpass) hloop

end

theorem Collecting.done (h : Collecting pending left st) (hrem : st.remaining = ∅) :
    st.ordered.Perm (pending.map Prod.snd) := by
  have hnil : left = [] := by
    cases left with
    | nil => rfl
    | cons p rest =>
      have := (h.remaining p.1).mpr (by simp)
      simp [hrem] at this
  have hperm := h.complete
  rwa [hnil, List.map_nil, List.append_nil] at hperm

/-- Everything in the pool goes into the order, or nothing does. -/
theorem orderedTransactions_perm {pool : Mempool K} {ordered : List Transaction}
    (h : pool.orderedTransactions u = .ok ordered) : ordered = [] ∨ ordered.Perm pool.snapshot := by
  have hstart : ∃ left, Collecting pool.pending left ⟨u, [], (pool.pending.map Prod.fst).toFinset⟩ :=
    ⟨_, collecting_start (pending_nodup pool)⟩
  have hend := orderLoop_induction (Q := fun st => ∃ left, Collecting pool.pending left st)
    (fun {_ _ _ working} hmem hrem _ hc => by
      obtain ⟨left, hc⟩ := hc
      obtain ⟨left', hperm⟩ := hc.split (pending_nodup pool) hmem hrem
      exact ⟨left', hc.take hperm working⟩) hstart h
  rcases hend with hnil | ⟨st, ⟨left, hc⟩, hrem, rfl⟩
  · exact Or.inl hnil
  · exact Or.inr ((hc.done hrem).trans (pending_snapshot pool))

/-- The loop returns everything, in an order that applies, or nothing. -/
theorem orderLoop_cases (hP : Orderable K pending) {passes : Nat} {st : OrderState}
    {left : List (Hash256 × Transaction)} {ordered : List Transaction} (h : Taking K u pending left st)
    (hloop : orderLoop K pending passes st = .ok ordered) : ordered = [] ∨ ordered.Perm (pending.map Prod.snd) ∧
      ∃ w, Coins.applyAll (ordered.map (Transaction.poolEntry K)) u = some w := by
  have hend := orderLoop_induction (Q := fun st => ∃ left, Taking K u pending left st)
    (fun hmem hrem hw ht => by
      obtain ⟨left, ht⟩ := ht
      obtain ⟨left', hperm⟩ := ht.split hP.nodup hmem hrem
      exact ⟨left', ht.take hperm ((hP.apply_of_spendAndAdd hmem).mp hw)⟩) ⟨left, h⟩ hloop
  rcases hend with hnil | ⟨st', ⟨left', ht⟩, hrem, rfl⟩
  · exact Or.inl hnil
  · exact Or.inr ⟨ht.done hrem, st'.working, ht.taken⟩

/-! ### Greed never blocks -/

theorem orderPass_ok (hP : Orderable K pending) : ∀ {l : List (Hash256 × Transaction)} {st : OrderState}
    {left : List (Hash256 × Transaction)} (progressed : Bool), (∀ p ∈ l, p ∈ pending) → Ordering K u pending left st →
    ∃ st' left' progressed', orderPass K l st progressed = .ok (some (st', progressed')) ∧
      Ordering K u pending left' st' ∧
      (progressed' = progressed ∧ st' = st ∧ left' = left ∧
          (∀ p ∈ l, p.1 ∈ st.remaining → ¬ ∀ k ∈ p.2.points, k ∈ st.working) ∨
        progressed' = true ∧ left'.length < left.length)
  | [], st, left, progressed, _, h =>
    ⟨st, left, progressed, rfl, h, Or.inl ⟨rfl, rfl, rfl, by simp⟩⟩
  | (id, tx) :: l, st, left, progressed, hl, h => by
    have hl' : ∀ p ∈ l, p ∈ pending := fun p hp => hl p (List.mem_cons_of_mem _ hp)
    -- skipping leaves the state to the rest of the pass
    have hskip : (id ∈ st.remaining → ¬ ∀ k ∈ tx.points, k ∈ st.working) →
        orderPass K ((id, tx) :: l) st progressed = orderPass K l st progressed →
        ∃ st' left' progressed', orderPass K ((id, tx) :: l) st progressed = .ok (some (st', progressed')) ∧
          Ordering K u pending left' st' ∧
          (progressed' = progressed ∧ st' = st ∧ left' = left ∧
              (∀ p ∈ (id, tx) :: l, p.1 ∈ st.remaining → ¬ ∀ k ∈ p.2.points, k ∈ st.working) ∨
            progressed' = true ∧ left'.length < left.length) := by
      intro hnot heq
      obtain ⟨st', left', progressed', hpass, hord, hres⟩ := orderPass_ok hP progressed hl' h
      refine ⟨st', left', progressed', heq ▸ hpass, hord, hres.imp_left fun hres => ⟨hres.1, hres.2.1, hres.2.2.1, ?_⟩⟩
      intro p hp
      rcases List.mem_cons.mp hp with rfl | hp
      · exact hnot
      · exact hres.2.2.2 p hp
    by_cases hrem : id ∈ st.remaining
    · by_cases hready : ∀ k ∈ tx.points, k ∈ st.working
      · obtain ⟨working, left₁, htake, hlt, hord⟩ := h.take hP (hl _ (by simp)) hrem hready
        obtain ⟨st', left', progressed', hpass, hord', hres⟩ := orderPass_ok hP true hl' hord
        have hall : (tx.inputs.all fun input => st.working.contains input.point) = true := by
          simpa [UTXOSet.contains, Transaction.points] using hready
        refine ⟨st', left', progressed', ?_, hord', Or.inr ?_⟩
        · rw [orderPass, if_neg (by simpa using hrem), hall, if_neg (by simp), htake]
          exact hpass
        · rcases hres with ⟨hp, -, hleft, -⟩ | ⟨hp, hlt'⟩
          · exact ⟨hp, hleft ▸ hlt⟩
          · exact ⟨hp, Nat.lt_trans hlt' hlt⟩
      · refine hskip (fun _ => hready) ?_
        have hall : (tx.inputs.all fun input => st.working.contains input.point) = false := by
          rw [← Bool.not_eq_true]
          simpa [UTXOSet.contains, Transaction.points] using hready
        rw [orderPass, if_neg (by simpa using hrem), hall, if_pos (by simp)]
    · refine hskip (fun hr => absurd hr hrem) ?_
      rw [orderPass, if_pos hrem]

theorem orderLoop_ok (hP : Orderable K pending) : ∀ {passes : Nat} {st : OrderState}
    {left : List (Hash256 × Transaction)}, left.length ≤ passes → Ordering K u pending left st →
    ∃ ordered w, orderLoop K pending passes st = .ok ordered ∧ ordered.Perm (pending.map Prod.snd) ∧
      Coins.applyAll (ordered.map (Transaction.poolEntry K)) u = some w
  | passes, st, left, hlen, h => by
    cases hleft : left with
    | nil =>
      have hrem : st.remaining = ∅ := Finset.eq_empty_of_forall_notMem fun id hid => by
        have := (h.remaining id).mp hid
        simp [hleft] at this
      have hloop : orderLoop K pending passes st = .ok st.ordered := by
        cases passes <;> simp [orderLoop, hrem]
      exact ⟨st.ordered, st.working, hloop, h.done hrem, h.taken⟩
    | cons p rest =>
      have hrem : st.remaining ≠ ∅ := Finset.ne_empty_of_mem ((h.remaining p.1).mpr (by simp [hleft]))
      cases passes with
      | zero => simp [hleft] at hlen
      | succ passes =>
        obtain ⟨st', left', progressed', hpass, hord, hres⟩ := orderPass_ok hP false (fun p hp => hp) h
        rcases hres with ⟨-, -, -, hnone⟩ | ⟨hp, hlt⟩
        · -- some order applies, so its first transaction was ready
          obtain ⟨e, he, hready⟩ := h.applicable.exists_ready (by simp [hleft])
          obtain ⟨q, hq, rfl⟩ := List.mem_map.mp he
          exact absurd hready (hnone q (h.sub q hq) ((h.remaining q.1).mpr (List.mem_map_of_mem hq)))
        · obtain ⟨ordered, w, hloop, hres⟩ := orderLoop_ok hP (show left'.length ≤ passes by omega) hord
          refine ⟨ordered, w, ?_, hres⟩
          rw [orderLoop, if_neg hrem, hpass, hp]
          exact hloop

structure Placeable (K : Crypto) (txs : List Transaction) (u : UTXOSet) : Prop where
  plain : ∀ tx ∈ txs, isCoinbaseTransaction tx = false
  applicable : Coins.Applicable (txs.map (Transaction.entry K)) u
  fresh : Coins.Fresh (txs.map (Transaction.entry K)) u

theorem orderedTransactions_complete {pool : Mempool K}
    (happ : Coins.Applicable (pool.snapshot.map (Transaction.poolEntry K)) u)
    (hfresh : Coins.Fresh (pool.snapshot.map (Transaction.poolEntry K)) u) :
    ∃ ordered w, pool.orderedTransactions u = .ok ordered ∧ ordered.Perm pool.snapshot ∧
      Coins.applyAll (ordered.map (Transaction.poolEntry K)) u = some w := by
  have hP := pending_orderable pool
  have hperm := (pending_snapshot pool).map (Transaction.poolEntry K)
  rw [List.map_map] at hperm
  obtain ⟨ordered, w, hloop, ho, hw⟩ := orderLoop_ok (u := u) hP (Nat.le_refl _)
    ⟨taking_start hP, happ.perm hperm.symm, hfresh.perm hperm.symm⟩
  exact ⟨ordered, w, hloop, ho.trans (pending_snapshot pool), hw⟩

theorem orderedTransactions_ok {pool : Mempool K} (h : Placeable K pool.snapshot u) :
    ∃ ordered w, pool.orderedTransactions u = .ok ordered ∧ ordered.Perm pool.snapshot ∧
      Coins.applyAll (ordered.map (Transaction.entry K)) u = some w := by
  have hentries := map_poolEntry (K := K) h.plain
  obtain ⟨ordered, w, ho, hperm, hw⟩ := orderedTransactions_complete (hentries ▸ h.applicable) (hentries ▸ h.fresh)
  rw [map_poolEntry fun tx htx => h.plain tx (hperm.subset htx)] at hw
  exact ⟨ordered, w, ho, hperm, hw⟩

theorem applyOrdered_eq : ∀ {txs : List Transaction} {u w : UTXOSet}, (∀ tx ∈ txs, tx.BaseFits uint32Max) →
    Coins.applyAll (txs.map (Transaction.poolEntry K)) u = some w → applyOrdered K txs u = .ok (some w)
  | [], u, w, _, h => by
    simp only [List.map_nil, Coins.applyAll, Option.some.injEq] at h
    rw [applyOrdered, h]
  | tx :: txs, u, w, hall, h => by
    obtain ⟨x, hx, hrest⟩ := Coins.applyAll_cons_some.mp h
    rw [applyOrdered, ifSome_ok]
    exact ⟨x, by rw [spendAndAdd_eq (hall tx (by simp)), hx], applyOrdered_eq (fun t ht => hall t (by simp [ht])) hrest⟩

theorem buildEffectiveUtxo_ok {pool : Mempool K} (h : Placeable K pool.snapshot u) :
    ∃ (ordered : List Transaction) (w : UTXOSet), ordered.Perm pool.snapshot ∧
      Coins.applyAll (ordered.map (Transaction.entry K)) u = some w ∧
      pool.buildEffectiveUtxo u = .ok (some w) := by
  obtain ⟨ordered, w, ho, hperm, hw⟩ := orderedTransactions_ok h
  refine ⟨ordered, w, hperm, hw, ?_⟩
  rw [Mempool.buildEffectiveUtxo, ho]
  show (if ordered.length ≠ pool.size then _ else _) = _
  rw [if_neg (by rw [size_eq, hperm.length_eq]; simp)]
  rw [← map_poolEntry fun tx htx => h.plain tx (hperm.subset htx)] at hw
  exact applyOrdered_eq (fun tx htx => (snapshot_fits (hperm.subset htx)).toBaseFits) hw

/-- What `accept` validates against is the pool applied to the chain, in the order a block would have. -/
theorem buildEffectiveUtxo_cases {pool : Mempool K} (hplain : ∀ tx ∈ pool.snapshot, isCoinbaseTransaction tx = false)
    {w : UTXOSet} (h : pool.buildEffectiveUtxo u = .ok (some w)) :
    ∃ ordered, pool.orderedTransactions u = .ok ordered ∧ ordered.Perm pool.snapshot ∧
      Coins.applyAll (ordered.map (Transaction.entry K)) u = some w := by
  obtain ⟨ordered, ho, h⟩ := bind_ok.mp h
  split at h
  · simp at h
  · rename_i hlen
    have hlen : ordered.length = pool.snapshot.length := by rw [← size_eq]; exact not_not.mp hlen
    have hfinish : ∀ {x : UTXOSet}, ordered.Perm pool.snapshot →
        Coins.applyAll (ordered.map (Transaction.poolEntry K)) u = some x →
        Coins.applyAll (ordered.map (Transaction.entry K)) u = some w := by
      intro x hperm hx
      rw [applyOrdered_eq (fun tx htx => (snapshot_fits (hperm.subset htx)).toBaseFits) hx, Except.ok.injEq,
        Option.some.injEq] at h
      rw [← h, ← hx, map_poolEntry fun tx htx => hplain tx (hperm.subset htx)]
    refine ⟨ordered, ho, ?_⟩
    rcases orderLoop_cases (pending_orderable pool) (taking_start (pending_orderable pool)) ho with rfl | ⟨hperm, x, hx⟩
    · have hperm : ([] : List Transaction).Perm pool.snapshot :=
        (List.eq_nil_of_length_eq_zero hlen.symm).symm ▸ .refl _
      exact ⟨hperm, hfinish hperm (x := u) rfl⟩
    · have hperm' := hperm.trans (pending_snapshot pool)
      exact ⟨hperm', hfinish hperm' hx⟩

/-! ## Admission -/

/-- A call of `accept` that returns leaves the pool, or adds a transaction that is valid after it. -/
theorem accept_ok {pool after : Mempool K} {tx : Transaction} {reason : MempoolRejectReason}
    (h : pool.accept tx u = .ok (reason, after)) : reason ≠ .none ∧ after = pool ∨
      reason = .none ∧ after.snapshot = tx :: pool.snapshot ∧
        after.reservedInputs = pool.reservedInputs ∪ tx.points.toFinset ∧
        pool.contains (tx.id K) = false ∧ tx.Fits uint32Max ∧ (∀ k ∈ tx.points, k ∉ pool.reservedInputs) ∧
        ∃ w, pool.buildEffectiveUtxo u = .ok (some w) ∧ validateTransactionWitness K tx w = .ok true := by
  unfold Mempool.accept at h
  split at h
  · cases h
  · rename_i id hid
    have hne : ∀ {r : MempoolRejectReason}, r ≠ .none →
        (.ok (r, pool) : Result (MempoolRejectReason × Mempool K)) = .ok (reason, after) →
        reason ≠ .none ∧ after = pool := by
      intro r hr he
      simp only [Except.ok.injEq, Prod.mk.injEq] at he
      exact ⟨he.1 ▸ hr, he.2.symm⟩
    split at h
    · exact Or.inl (hne (by decide) h)
    · rename_i hnew
      split at h
      · exact Or.inl (hne (by decide) h)
      · split at h
        · cases h
        · rename_i data hdata
          split at h
          · exact Or.inl (hne (by decide) h)
          · split at h
            · exact Or.inl (hne (by decide) h)
            · obtain ⟨r, hadmit, h⟩ := bind_ok.mp h
              simp only [pure_ok, Prod.mk.injEq] at h
              obtain ⟨rfl, rfl⟩ := h
              by_cases hr : r = .none
              · subst hr
                have hnew' : pool.contains id = false := by simpa using hnew
                have hide : id = tx.id K := ((txid_ok K tx id).mp hid).2
                unfold Mempool.validateAdmission at hadmit
                split at hadmit
                · simp at hadmit
                · rename_i hres
                  obtain ⟨effective, heff, hadmit⟩ := bind_ok.mp hadmit
                  cases effective with
                  | none => simp at hadmit
                  | some w =>
                    simp only at hadmit
                    split at hadmit
                    · rename_i hv
                      exact absurd (pure_ok.mp hadmit) hv
                    · obtain ⟨valid, hvalid, hadmit⟩ := bind_ok.mp hadmit
                      cases valid with
                      | false => simp at hadmit
                      | true =>
                        refine Or.inr ⟨rfl, ?_, ?_, hide ▸ hnew', (serializeFullBinary_ok.mp hdata).1, ?_, w, heff, hvalid⟩
                        · rw [if_pos rfl, insert_snapshot hid hdata hnew']
                        · rw [if_pos rfl]; rfl
                        · simpa [Mempool.inputReserved, Transaction.points] using hres
              · rw [if_neg hr]
                exact Or.inl ⟨hr, rfl⟩

/-- A transaction that passes every check is admitted. -/
theorem accept_admits {pool : Mempool K} {tx : Transaction} {w : UTXOSet} (hf : tx.Fits uint32Max)
    (hnew : pool.contains (tx.id K) = false) (hcount : pool.size < maxTransactions)
    (hsize : tx.fullBytes.length ≤ maxTransactionBytes) (hroom : pool.mempoolBytes + tx.fullBytes.length ≤ maxMempoolBytes)
    (hfree : ∀ k ∈ tx.points, k ∉ pool.reservedInputs) (heff : pool.buildEffectiveUtxo u = .ok (some w))
    (hvalid : validateForMempool tx w = .none) (hwit : validateTransactionWitness K tx w = .ok true) :
    ∃ after, pool.accept tx u = .ok (.none, after) := by
  have hadmission : pool.validateAdmission tx u = .ok .none := by
    have hany : (tx.inputs.any fun input => pool.inputReserved input.point) = false := by
      simpa [Mempool.inputReserved, Transaction.points] using hfree
    rw [Mempool.validateAdmission, hany, if_neg (by simp), heff]
    show (if validateForMempool tx w ≠ .none then _ else _) = _
    rw [hvalid, if_neg (by simp), hwit]
    rfl
  unfold Mempool.accept
  split
  · rename_i e hid
    rw [(txid_ok K tx _).mpr ⟨hf.toBaseFits, rfl⟩] at hid
    cases hid
  · rename_i id hid
    obtain rfl := ((txid_ok K tx id).mp hid).2
    rw [if_neg (by simp [hnew]), if_neg (by omega)]
    split
    · rename_i e hdata
      rw [serializeFullBinary_ok.mpr ⟨hf, rfl⟩] at hdata
      cases hdata
    · rename_i data hdata
      obtain rfl := (serializeFullBinary_ok.mp hdata).2
      rw [if_neg (by omega), if_neg (by omega), hadmission]
      exact ⟨_, rfl⟩

/-- The limits that an admitted transaction passed. -/
theorem accept_limits {pool after : Mempool K} {tx : Transaction} (h : pool.accept tx u = .ok (.none, after)) :
    tx.fullBytes.length ≤ maxTransactionBytes ∧ pool.mempoolBytes + tx.fullBytes.length ≤ maxMempoolBytes ∧
      pool.size < maxTransactions ∧ after.mempoolBytes = pool.mempoolBytes + tx.fullBytes.length := by
  unfold Mempool.accept at h
  split at h
  · cases h
  · rename_i id hid
    split at h
    · cases h
    · split at h
      · cases h
      · rename_i hcount
        split at h
        · cases h
        · rename_i data hdata
          obtain rfl := (serializeFullBinary_ok.mp hdata).2
          split at h
          · cases h
          · rename_i hsize
            split at h
            · cases h
            · rename_i hroom
              obtain ⟨r, -, h⟩ := bind_ok.mp h
              simp only [pure_ok, Prod.mk.injEq] at h
              obtain ⟨rfl, rfl⟩ := h
              have : maxTransactionBytes ≤ maxMempoolBytes := by decide
              refine ⟨by omega, by omega, by omega, ?_⟩
              rw [if_pos rfl]
              rfl

/-! ## Revalidation

A property of pools that admission keeps holds of the pool that revalidation
rebuilds, because all it does is admit some of the old transactions again.
-/

section
variable {Q : Mempool K → Prop} {l : List Transaction}

theorem revalidatePass_induction
    (hacc : ∀ {tx pool reason after}, tx ∈ l → Q pool → pool.accept tx u = .ok (reason, after) → Q after) :
    ∀ {m : List Transaction} {pool : Mempool K} (pending : Finset Hash256) (progress : Bool), (∀ tx ∈ m, tx ∈ l) →
      Q pool → Q (revalidatePass K u m pool pending progress).2
  | [], _, _, _, _, h => h
  | tx :: m, pool, pending, progress, hm, h => by
    have hm' : ∀ tx ∈ m, tx ∈ l := fun p hp => hm p (List.mem_cons_of_mem _ hp)
    unfold revalidatePass
    split
    · exact h
    · split
      · exact revalidatePass_induction hacc _ _ hm' h
      · split
        · exact revalidatePass_induction hacc _ _ hm' h
        · split
          · exact h
          · rename_i he
            exact revalidatePass_induction hacc _ _ hm' (hacc (hm tx (by simp)) h he)

theorem revalidateLoop_induction
    (hacc : ∀ {tx pool reason after}, tx ∈ l → Q pool → pool.accept tx u = .ok (reason, after) → Q after) :
    ∀ {passes : Nat} {pool : Mempool K} (pending : Finset Hash256), Q pool →
      Q (revalidateLoop K u l passes pool pending).2
  | 0, _, _, h => h
  | passes + 1, pool, pending, h => by
    have hpass := revalidatePass_induction hacc pending false (fun tx htx => htx) h
    unfold revalidateLoop
    split
    · exact h
    · split
      · rename_i he
        rw [he] at hpass
        exact hpass
      · rename_i he
        rw [he] at hpass
        split
        · exact hpass
        · exact revalidateLoop_induction hacc _ hpass

theorem revalidate_induction {pool : Mempool K} {chain : List Block} {t : UInt64}
    (hempty : ∀ pool : Mempool K, pool.snapshot = [] → Q pool) (hr : Replay K chain u t)
    (hacc : ∀ {tx after reason now}, tx ∈ pool.snapshot → Q now → now.accept tx u = .ok (reason, after) → Q after)
    (walk : Walk K) : Q (revalidateMempoolAfterReorg K walk pool chain).2 := by
  unfold revalidateMempoolAfterReorg
  dsimp only
  split
  · rename_i hz
    exact hempty pool (List.eq_nil_of_length_eq_zero (size_eq pool ▸ hz))
  · split
    · exact hempty _ empty_snapshot
    · rw [rebuildUtxoSet_ok.mpr ⟨t, hr⟩]
      dsimp only
      split
      · exact hempty _ empty_snapshot
      · exact revalidateLoop_induction (fun htx => hacc ((walk.perm pool).subset htx)) _ (hempty _ empty_snapshot)

end

end

end Caesar
