import Caesar.LimitSound
import Caesar.Removal

/-!
# The pool describes itself

The reserved inputs and the byte count repeat what the map of the pool says.
Every call keeps the three in step (`pool_consistent`), the second loop of
`remove` after each of its steps, so its subtractions never wrap around. What
`remove` takes out is the transaction and its descendants (`mem_remove`).
-/

namespace Caesar

open Codec

section
variable {K : Crypto}

/-! ## Consistent pools -/

structure Mempool.Consistent (pool : Mempool K) : Prop extends pool.Bounded where
  serialized : ∀ id tx, pool.transactions.lookup id = some tx →
    tx.txid K = .ok id ∧ tx.serializeFullBinary = .ok tx.fullBytes
  inputs : (pool.snapshot.flatMap Transaction.points).Nodup
  reserved : pool.reservedInputs = (pool.snapshot.flatMap Transaction.points).toFinset

theorem Mempool.serialized_lookup {pool : Mempool K} (id : Hash256) (tx : Transaction)
    (h : pool.transactions.lookup id = some tx) :
    tx.txid K = .ok id ∧ tx.serializeFullBinary = .ok tx.fullBytes := by
  obtain ⟨hid, data, hdata⟩ := pool.keyed id tx h
  obtain ⟨hfits, -⟩ := serializeFullBinary_ok.mp hdata
  exact ⟨hid, serializeFullBinary_ok.mpr ⟨hfits, rfl⟩⟩

theorem empty_consistent : (Mempool.empty K).Consistent := by
  refine ⟨Mempool.Admitted.empty.bounded, Mempool.serialized_lookup, ?_, ?_⟩
  · rw [empty_snapshot]
    exact List.nodup_nil
  · rw [empty_snapshot]
    rfl

theorem Mempool.Consistent.accept {pool after : Mempool K} (h : pool.Consistent) {tx : Transaction} {u : UTXOSet}
    {reason : MempoolRejectReason} (hacc : pool.accept tx u = .ok (reason, after)) : after.Consistent := by
  rcases accept_ok hacc with ⟨-, rfl⟩ | ⟨-, hsnap, hres, -, -, hfree, w, -, hwit⟩
  · exact h
  · have hnodup : tx.points.Nodup := (authorized_of_validate hwit).nodup
    refine ⟨h.toBounded.accept hacc, Mempool.serialized_lookup, ?_, ?_⟩
    · rw [hsnap, List.flatMap_cons, List.nodup_append]
      refine ⟨hnodup, h.inputs, ?_⟩
      intro a ha b hb hab
      apply hfree a ha
      rw [h.reserved, List.mem_toFinset, hab]
      exact hb
    · rw [hres, hsnap, h.reserved, List.flatMap_cons, List.toFinset_append, Finset.union_comm]

/-! ## Releasing an entry -/

theorem erase_snapshot {pool : Mempool K} {id : Hash256} {tx : Transaction}
    (h : pool.transactions.lookup id = some tx) (size : Nat) :
    pool.snapshot.Perm (tx :: (pool.release id tx size).snapshot) := by
  have hkey : id ∈ pool.transactions.entries.keys := by
    rw [← AList.keys, ← AList.mem_keys, ← AList.lookup_isSome, h]
    rfl
  obtain ⟨tx', l, r, -, hentries, herase⟩ := List.exists_of_kerase hkey
  have hmem : (⟨id, tx'⟩ : Sigma fun _ : Hash256 => Transaction) ∈ pool.transactions.entries := by
    rw [hentries]
    simp
  have htx : pool.transactions.lookup id = some tx' := AList.mem_lookup_iff.mpr hmem
  rw [h, Option.some.injEq] at htx
  subst htx
  have hafter : (pool.release id tx size).snapshot = (l ++ r).map fun entry => entry.2 := by
    rw [← herase]
    rfl
  rw [hafter, Mempool.snapshot, hentries, List.map_append, List.map_append, List.map_cons]
  exact List.perm_middle

theorem weight_perm {l m : List Transaction} (h : l.Perm m) : weight l = weight m := (h.map _).sum_eq

theorem weight_cons (tx : Transaction) (l : List Transaction) : weight (tx :: l) = tx.fullBytes.length + weight l := by
  simp [weight]

theorem sizeSub_add {a b : Nat} (h : a + b < 2 ^ 64) : sizeSub (a + b) a = b := by
  unfold sizeSub
  omega

theorem Mempool.Consistent.release {pool : Mempool K} (h : pool.Consistent) {id : Hash256} {tx : Transaction}
    (hl : pool.transactions.lookup id = some tx) : (pool.release id tx tx.fullBytes.length).Consistent := by
  have hperm := erase_snapshot hl tx.fullBytes.length
  generalize hafter : pool.release id tx tx.fullBytes.length = after at hperm
  have hpoints := hperm.flatMap_right Transaction.points
  have hnodup := hpoints.nodup_iff.mp h.inputs
  rw [List.flatMap_cons, List.nodup_append] at hnodup
  have hweight : pool.mempoolBytes = tx.fullBytes.length + weight after.snapshot := by
    rw [h.bytes, weight_perm hperm, weight_cons]
  have hroom := h.room
  have hmax : maxMempoolBytes < 2 ^ 64 := by decide
  have hbytes : after.mempoolBytes = weight after.snapshot := by
    rw [← hafter]
    show sizeSub pool.mempoolBytes tx.fullBytes.length = _
    rw [hweight, sizeSub_add (by omega), hafter]
  refine ⟨⟨hbytes, ?_, ?_, ?_⟩, Mempool.serialized_lookup, hnodup.2.1, ?_⟩
  · intro p hp
    exact h.each p (hperm.symm.subset (List.mem_cons_of_mem tx hp))
  · have hcount := h.count
    rw [hperm.length_eq, List.length_cons] at hcount
    omega
  · omega
  · have hres : after.reservedInputs = pool.reservedInputs \ tx.points.toFinset := by
      rw [← hafter]
      rfl
    rw [hres, h.reserved]
    ext k
    simp only [Finset.mem_sdiff, List.mem_toFinset, hpoints.mem_iff, List.flatMap_cons, List.mem_append]
    constructor
    · rintro ⟨hk | hk, hn⟩
      · exact absurd hk hn
      · exact hk
    · intro hk
      exact ⟨Or.inr hk, fun hk' => hnodup.2.2 k hk' k hk rfl⟩

theorem Mempool.Consistent.removeEach : ∀ (ids : List Hash256) {pool : Mempool K}, pool.Consistent →
    (pool.removeEach ids).1 = .ok () ∧ (pool.removeEach ids).2.Consistent
  | [], pool, h => ⟨rfl, h⟩
  | id :: ids, pool, h => by
    unfold Mempool.removeEach
    cases hl : pool.transactions.lookup id with
    | none => exact Mempool.Consistent.removeEach ids h
    | some tx =>
      dsimp only
      rw [(h.serialized id tx hl).2]
      exact Mempool.Consistent.removeEach ids (h.release hl)

theorem remove_eq {pool : Mempool K} (h : pool.Consistent) (walk : RemovalWalk K) (txid : Hash256) :
    pool.remove walk txid = if pool.contains txid then
      (.ok true, (pool.removeEach
        (walk.ids (removalLoop (walk.entries pool) (walk.entries pool).length {txid}))).2) else (.ok false, pool) := by
  unfold Mempool.remove
  by_cases hc : pool.contains txid = true
  · have hdone := (h.removeEach (walk.ids (removalLoop (walk.entries pool) (walk.entries pool).length {txid}))).1
    simp only [hc, Bool.not_true, Bool.false_eq_true, ite_false, ite_true]
    generalize Mempool.removeEach _ pool = r at hdone
    obtain ⟨result, after⟩ := r
    cases hdone
    rfl
  · simp [hc]

theorem Mempool.Consistent.remove {pool : Mempool K} (h : pool.Consistent) (walk : RemovalWalk K) (txid : Hash256) :
    (pool.remove walk txid).2.Consistent := by
  rw [remove_eq h]
  by_cases hc : pool.contains txid = true
  · rw [if_pos hc]
    exact (h.removeEach _).2
  · rw [if_neg hc]
    exact h

/-! ## What is removed -/

/-- `id` is `root`, or the id of an entry with an input from a descendant of `root`. -/
inductive Descends (entries : List (Hash256 × Transaction)) (root : Hash256) : Hash256 → Prop
  | root : Descends entries root root
  | child {id tx input} : (id, tx) ∈ entries → input ∈ tx.inputs → Descends entries root input.previousTxid →
    Descends entries root id

def RemovalClosed (entries : List (Hash256 × Transaction)) (removal : Finset Hash256) : Prop :=
  ∀ p ∈ entries, p.1 ∉ removal → ∀ input ∈ p.2.inputs, input.previousTxid ∉ removal

section
variable {entries : List (Hash256 × Transaction)}

theorem removalPass_cases {Q : Hash256 → Prop} : ∀ {l : List (Hash256 × Transaction)} {removal : Finset Hash256}
    (changed : Bool), (∀ id tx input, (id, tx) ∈ l → input ∈ tx.inputs → Q input.previousTxid → Q id) →
    (∀ id ∈ removal, Q id) →
    removal ⊆ (removalPass l removal changed).1 ∧ (∀ id ∈ (removalPass l removal changed).1, Q id) ∧
      (removalPass l removal changed = (removal, changed) ∧ RemovalClosed l removal ∨
        (removalPass l removal changed).2 = true ∧
          ∃ id ∈ l.map Prod.fst, id ∉ removal ∧ id ∈ (removalPass l removal changed).1)
  | [], removal, changed, _, hall => ⟨fun _ h => h, hall, Or.inl ⟨rfl, by simp [RemovalClosed]⟩⟩
  | (id, tx) :: l, removal, changed, hstep, hall => by
    have hstep' : ∀ id' tx' input, (id', tx') ∈ l → input ∈ tx'.inputs → Q input.previousTxid → Q id' :=
      fun id' tx' input hm => hstep id' tx' input (List.mem_cons_of_mem _ hm)
    -- passing over the entry leaves the rest of the pass
    have hskip : (id ∉ removal → ∀ input ∈ tx.inputs, input.previousTxid ∉ removal) →
        removalPass ((id, tx) :: l) removal changed = removalPass l removal changed →
        removal ⊆ (removalPass ((id, tx) :: l) removal changed).1 ∧
          (∀ id' ∈ (removalPass ((id, tx) :: l) removal changed).1, Q id') ∧
          (removalPass ((id, tx) :: l) removal changed = (removal, changed) ∧ RemovalClosed ((id, tx) :: l) removal ∨
            (removalPass ((id, tx) :: l) removal changed).2 = true ∧
              ∃ id' ∈ ((id, tx) :: l).map Prod.fst,
                id' ∉ removal ∧ id' ∈ (removalPass ((id, tx) :: l) removal changed).1) := by
      intro hnone heq
      obtain ⟨hsub, hQ, hcases⟩ := removalPass_cases changed hstep' hall
      rw [heq]
      refine ⟨hsub, hQ, ?_⟩
      rcases hcases with ⟨he, hclosed⟩ | ⟨ht, id', hid', hnew⟩
      · exact Or.inl ⟨he, List.forall_mem_cons.mpr ⟨hnone, hclosed⟩⟩
      · exact Or.inr ⟨ht, id', List.mem_cons_of_mem _ hid', hnew⟩
    by_cases hid : id ∈ removal
    · apply hskip
      · intro hn
        exact absurd hid hn
      · rw [removalPass, if_pos hid]
    · by_cases hany : (tx.inputs.any fun input => input.previousTxid ∈ removal) = true
      · obtain ⟨input, hin, hr⟩ := List.any_eq_true.mp hany
        have hQid : Q id := hstep id tx input List.mem_cons_self hin (hall _ (of_decide_eq_true hr))
        have hall' : ∀ id' ∈ insert id removal, Q id' := by
          intro id' hid'
          rcases Finset.mem_insert.mp hid' with rfl | hid'
          · exact hQid
          · exact hall id' hid'
        obtain ⟨hsub, hQ, hcases⟩ := removalPass_cases true hstep' hall'
        rw [removalPass, if_neg hid, if_pos hany]
        refine ⟨(Finset.subset_insert id removal).trans hsub, hQ, Or.inr ⟨?_, id, by simp, hid, ?_⟩⟩
        · rcases hcases with ⟨he, -⟩ | ⟨ht, -⟩
          · rw [he]
          · exact ht
        · exact hsub (Finset.mem_insert_self id removal)
      · apply hskip
        · intro _ input hin hr
          exact hany (List.any_eq_true.mpr ⟨input, hin, decide_eq_true hr⟩)
        · rw [removalPass, if_neg hid, if_neg hany]

theorem removalPass_card {removal removal' : Finset Hash256}
    (h : removalPass entries removal false = (removal', true)) :
    ((entries.map Prod.fst).toFinset \ removal').card < ((entries.map Prod.fst).toFinset \ removal).card := by
  obtain ⟨hsub, -, hcases⟩ := removalPass_cases (Q := fun _ => True) (l := entries) false
    (fun _ _ _ _ _ _ => trivial) (fun id (_ : id ∈ removal) => trivial)
  rw [h] at hsub hcases
  obtain hsame | ⟨-, id, hid, hnew, hin⟩ := hcases
  · cases hsame.1
  · apply Finset.card_lt_card
    refine Finset.ssubset_iff_of_subset (Finset.sdiff_subset_sdiff (Finset.Subset.refl _) hsub) |>.mpr ⟨id, ?_, ?_⟩
    · exact Finset.mem_sdiff.mpr ⟨List.mem_toFinset.mpr hid, hnew⟩
    · intro hmem
      exact (Finset.mem_sdiff.mp hmem).2 hin

/-- The loop ends with a closed set, within one pass for each entry that is not yet in it and one more. -/
theorem removalLoop_ok {Q : Hash256 → Prop}
    (hstep : ∀ id tx input, (id, tx) ∈ entries → input ∈ tx.inputs → Q input.previousTxid → Q id) :
    ∀ {passes : Nat} {removal : Finset Hash256}, ((entries.map Prod.fst).toFinset \ removal).card < passes →
      (∀ id ∈ removal, Q id) → removal ⊆ removalLoop entries passes removal ∧
        (∀ id ∈ removalLoop entries passes removal, Q id) ∧ RemovalClosed entries (removalLoop entries passes removal) := by
  intro passes
  induction passes with
  | zero =>
    intro removal hlt
    exact absurd hlt (Nat.not_lt_zero _)
  | succ passes ih =>
    intro removal hlt hall
    obtain ⟨hsub, hQ, hcases⟩ := removalPass_cases false hstep hall
    unfold removalLoop
    rcases hpass : removalPass entries removal false with ⟨removal', changed⟩
    rw [hpass] at hsub hQ hcases
    dsimp only at hsub hQ ⊢
    rcases hcases with ⟨he, hclosed⟩ | ⟨rfl, -⟩
    · obtain ⟨rfl, rfl⟩ := Prod.mk.inj he
      rw [if_pos (by decide)]
      exact ⟨hsub, hQ, hclosed⟩
    · have hfewer := removalPass_card hpass
      obtain ⟨hsub', hQ', hclosed⟩ := ih (by omega) hQ
      rw [if_neg (by decide)]
      exact ⟨hsub.trans hsub', hQ', hclosed⟩

theorem mem_removalLoop {root : Hash256} (hroot : root ∈ entries.map Prod.fst) {id : Hash256} :
    id ∈ removalLoop entries entries.length {root} ↔ Descends entries root id := by
  have hfew : ((entries.map Prod.fst).toFinset \ {root}).card < entries.length := by
    have hlen := List.toFinset_card_le (entries.map Prod.fst)
    rw [List.length_map] at hlen
    refine Nat.lt_of_lt_of_le (Finset.card_lt_card ?_) hlen
    exact Finset.sdiff_ssubset (Finset.singleton_subset_iff.mpr (List.mem_toFinset.mpr hroot)) (Finset.singleton_nonempty root)
  have hstart : ∀ id ∈ ({root} : Finset Hash256), Descends entries root id := by
    intro id hid
    rw [Finset.mem_singleton.mp hid]
    exact .root
  obtain ⟨hsub, hdesc, hclosed⟩ := removalLoop_ok (Q := Descends entries root)
    (fun _ _ _ hmem hin hd => .child hmem hin hd) hfew hstart
  refine ⟨hdesc id, ?_⟩
  intro hd
  induction hd with
  | root => exact hsub (Finset.mem_singleton_self root)
  | @child id tx input hmem hin _ ih =>
    by_contra hn
    exact hclosed (id, tx) hmem hn input hin ih

end

theorem removeEach_snapshot : ∀ (ids : List Hash256) {pool : Mempool K}, pool.Consistent → ∀ {tx : Transaction},
    tx ∈ (pool.removeEach ids).2.snapshot ↔ tx ∈ pool.snapshot ∧ tx.id K ∉ ids
  | [], pool, _, tx => by simp [Mempool.removeEach]
  | id :: ids, pool, h, tx => by
    have hother : ∀ {p : Transaction}, p ∈ pool.snapshot → pool.transactions.lookup (p.id K) = some p := by
      intro p hp
      obtain ⟨key, hl⟩ := mem_snapshot.mp hp
      rwa [← (keyed_id hl).2]
    unfold Mempool.removeEach
    cases hl : pool.transactions.lookup id with
    | none =>
      dsimp only
      rw [removeEach_snapshot ids h, List.mem_cons, not_or]
      constructor
      · rintro ⟨hmem, hn⟩
        refine ⟨hmem, ?_, hn⟩
        rintro rfl
        rw [hother hmem] at hl
        cases hl
      · rintro ⟨hmem, -, hn⟩
        exact ⟨hmem, hn⟩
    | some p =>
      dsimp only
      rw [(h.serialized id p hl).2]
      dsimp only
      obtain rfl := (keyed_id hl).2
      have hperm := erase_snapshot hl p.fullBytes.length
      have hids := ((hperm.map (Transaction.id K)).nodup_iff.mp (snapshot_ids_nodup pool))
      rw [List.map_cons, List.nodup_cons] at hids
      rw [removeEach_snapshot ids (h.release hl), hperm.mem_iff, List.mem_cons, List.mem_cons, not_or]
      constructor
      · rintro ⟨hmem, hn⟩
        refine ⟨Or.inr hmem, ?_, hn⟩
        intro he
        exact hids.1 (List.mem_map.mpr ⟨tx, hmem, he⟩)
      · rintro ⟨rfl | hmem, hne, hn⟩
        · exact absurd rfl hne
        · exact ⟨hmem, hn⟩

/-- `remove` leaves what does not descend from the transaction, whatever the orders of its walks. -/
theorem mem_remove {pool : Mempool K} (h : pool.Consistent) (walk : RemovalWalk K) {txid : Hash256} {tx : Transaction} :
    tx ∈ (pool.remove walk txid).2.snapshot ↔
      tx ∈ pool.snapshot ∧ (pool.contains txid = true → ¬ Descends (walk.entries pool) txid (tx.id K)) := by
  rw [remove_eq h]
  by_cases hc : pool.contains txid = true
  · have hroot : txid ∈ (walk.entries pool).map Prod.fst := by
      have hkeys := (walk.perm pool).map Prod.fst
      rw [List.map_map] at hkeys
      rw [hkeys.mem_iff]
      have hkey : txid ∈ pool.transactions := by simpa [Mempool.contains] using hc
      exact hkey
    rw [if_pos hc, removeEach_snapshot _ h, walk.mem_ids, mem_removalLoop hroot]
    simp [hc]
  · simp [hc]

/-! ## Runs -/

inductive PoolCall (K : Crypto) where
  | accept (tx : Transaction) (chainUtxos : UTXOSet)
  | remove (walk : RemovalWalk K) (txid : Hash256)
  | clear

def Mempool.call (pool : Mempool K) : PoolCall K → Mempool K
  | .accept tx chainUtxos =>
    match pool.accept tx chainUtxos with
    | .error _ => pool
    | .ok (_, after) => after
  | .remove walk txid => (pool.remove walk txid).2
  | .clear => pool.clear

def Mempool.after (calls : List (PoolCall K)) : Mempool K := calls.foldl Mempool.call (Mempool.empty K)

theorem Mempool.after_snoc (calls : List (PoolCall K)) (call : PoolCall K) :
    Mempool.after (calls ++ [call]) = (Mempool.after calls).call call := by
  unfold Mempool.after
  rw [List.foldl_append]
  rfl

theorem call_accept (pool : Mempool K) (tx : Transaction) (u : UTXOSet) :
    pool.call (.accept tx u) = pool ∨ pool.accept tx u = .ok (.none, pool.call (.accept tx u)) := by
  dsimp only [Mempool.call]
  cases hacc : pool.accept tx u with
  | error e => exact Or.inl rfl
  | ok r =>
    obtain ⟨reason, after⟩ := r
    rcases accept_ok hacc with ⟨-, rfl⟩ | ⟨rfl, -⟩
    · exact Or.inl rfl
    · exact Or.inr rfl

theorem Mempool.Consistent.call {pool : Mempool K} (h : pool.Consistent) (call : PoolCall K) :
    (pool.call call).Consistent := by
  cases call with
  | accept tx u =>
    rcases call_accept pool tx u with he | hacc
    · rw [he]
      exact h
    · exact h.accept hacc
  | remove walk txid => exact h.remove walk txid
  | clear => exact empty_consistent

theorem after_consistent (calls : List (PoolCall K)) : (Mempool.after calls).Consistent := by
  induction calls using List.reverseRecOn with
  | nil => exact empty_consistent
  | append_singleton calls call ih =>
    rw [Mempool.after_snoc]
    exact ih.call call

/-- After any calls the pool is consistent, a removal keeps it so after each of its steps, and a call of `accept` that
does not admit its transaction changes nothing. -/
theorem pool_consistent (calls : List (PoolCall K)) :
    (Mempool.after calls).Consistent ∧
    (∀ ids, ((Mempool.after calls).removeEach ids).1 = .ok () ∧ ((Mempool.after calls).removeEach ids).2.Consistent) ∧
    ∀ tx u, (∀ pool, (Mempool.after calls).accept tx u ≠ .ok (.none, pool)) →
      (Mempool.after calls).call (.accept tx u) = Mempool.after calls := by
  refine ⟨after_consistent calls, fun ids => (after_consistent calls).removeEach ids, ?_⟩
  intro tx u hrejected
  rcases call_accept (Mempool.after calls) tx u with he | hacc
  · exact he
  · exact absurd hacc (hrejected _)

end

end Caesar
