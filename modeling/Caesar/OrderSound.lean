import Caesar.RemovalSound

/-!
# The order of the pool

`orderedTransactions` on any consistent pool and any UTXO set: what it returns is
the whole pool in an order in which each transaction finds its inputs, or
nothing; with new outputs only, it finds such an order whenever there is one. The
loop of the source has no bound on its passes, so `OrderRun` says what it is to
end, and the order of the map does not matter because the entries are sorted.
-/

namespace Caesar

open Codec

section
variable {K : Crypto}

/-! ## The loop ends -/

/-- The `while` loop, from a state to what it returns. -/
inductive OrderRun (K : Crypto) (pending : List (Hash256 × Transaction)) : OrderState → List Transaction → Prop
  | done {st} : st.remaining = ∅ → OrderRun K pending st st.ordered
  | failed {st} : st.remaining ≠ ∅ → orderPass K pending st false = .ok none → OrderRun K pending st []
  | stuck {st st'} : st.remaining ≠ ∅ → orderPass K pending st false = .ok (some (st', false)) → OrderRun K pending st []
  | next {st st' ordered} : st.remaining ≠ ∅ → orderPass K pending st false = .ok (some (st', true)) →
    OrderRun K pending st' ordered → OrderRun K pending st ordered

theorem orderPass_card : ∀ {l : List (Hash256 × Transaction)} {st st' : OrderState} {progressed progressed' : Bool},
    orderPass K l st progressed = .ok (some (st', progressed')) →
      progressed' = progressed ∧ st' = st ∨ progressed' = true ∧ st'.remaining.card < st.remaining.card
  | [], st, st', progressed, progressed', h => by
    simp only [orderPass, Except.ok.injEq, Option.some.injEq, Prod.mk.injEq] at h
    exact Or.inl ⟨h.2.symm, h.1.symm⟩
  | (id, tx) :: l, st, st', progressed, progressed', h => by
    unfold orderPass at h
    by_cases hrem : id ∈ st.remaining
    · rw [if_neg (not_not.mpr hrem)] at h
      by_cases hready : (!tx.inputs.all fun input => st.working.contains input.point) = true
      · rw [if_pos hready] at h
        exact orderPass_card h
      · rw [if_neg hready] at h
        obtain ⟨working, -, h⟩ := ifSome_ok.mp h
        have hless : (st.remaining.erase id).card < st.remaining.card := Finset.card_erase_lt_of_mem hrem
        refine Or.inr ?_
        rcases orderPass_card h with ⟨hp, rfl⟩ | ⟨hp, hlt⟩
        · exact ⟨hp, hless⟩
        · exact ⟨hp, Nat.lt_trans hlt hless⟩
    · rw [if_pos hrem] at h
      exact orderPass_card h

theorem orderLoop_run {pending : List (Hash256 × Transaction)} {ordered : List Transaction} {passes : Nat} :
    ∀ {st : OrderState}, st.remaining.card ≤ passes → orderLoop K pending passes st = .ok ordered →
      OrderRun K pending st ordered := by
  induction passes with
  | zero =>
    intro st hcard h
    have hrem : st.remaining = ∅ := Finset.card_eq_zero.mp (Nat.le_zero.mp hcard)
    rw [orderLoop, if_pos hrem, Except.ok.injEq] at h
    exact h ▸ .done hrem
  | succ passes ih =>
    intro st hcard h
    unfold orderLoop at h
    by_cases hrem : st.remaining = ∅
    · rw [if_pos hrem, Except.ok.injEq] at h
      exact h ▸ .done hrem
    · rw [if_neg hrem] at h
      obtain ⟨r, hpass, h⟩ := bind_ok.mp h
      cases r with
      | none =>
        obtain rfl := pure_ok.mp h
        exact .failed hrem hpass
      | some r =>
        obtain ⟨st', progressed⟩ := r
        cases progressed with
        | false =>
          obtain rfl := pure_ok.mp h
          exact .stuck hrem hpass
        | true =>
          have hless : st'.remaining.card < st.remaining.card := by
            rcases orderPass_card hpass with ⟨hp, -⟩ | ⟨-, hlt⟩
            · cases hp
            · exact hlt
          exact .next hrem hpass (ih (by omega) h)

theorem orderedTransactions_run {pool : Mempool K} {u : UTXOSet} {ordered : List Transaction}
    (h : pool.orderedTransactions u = .ok ordered) :
    OrderRun K pool.pending ⟨u, [], (pool.pending.map Prod.fst).toFinset⟩ ordered := by
  refine orderLoop_run ?_ h
  have hcard := List.toFinset_card_le (pool.pending.map Prod.fst)
  rwa [List.length_map] at hcard

theorem orderedTransactions_returns (pool : Mempool K) (u : UTXOSet) :
    ∃ ordered, pool.orderedTransactions u = .ok ordered := by
  have hpending : ∀ p ∈ pool.pending, p.2.BaseFits uint32Max := fun p hp =>
    (snapshot_fits ((pending_snapshot pool).subset (List.mem_map_of_mem hp))).toBaseFits
  have hstart : ∀ tx ∈ (⟨u, [], (pool.pending.map Prod.fst).toFinset⟩ : OrderState).ordered, tx.BaseFits uint32Max := by
    simp
  obtain ⟨ordered, ho, -⟩ := orderLoop_returns (K := K) hpending pool.pending.length hstart
  exact ⟨ordered, ho⟩

/-! ## The order of the map -/

theorem lexLe_total : ∀ (a b : Bytes), lexLe a b = true ∨ lexLe b a = true
  | [], _ => Or.inl rfl
  | _ :: _, [] => Or.inr rfl
  | x :: a, y :: b => by
    unfold lexLe
    by_cases hxy : x < y
    · simp [hxy]
    · by_cases hyx : y < x
      · simp [hyx]
      · simp only [hxy, hyx, ite_false]
        exact lexLe_total a b

theorem lexLe_antisymm : ∀ {a b : Bytes}, lexLe a b = true → lexLe b a = true → a = b
  | [], [], _, _ => rfl
  | [], _ :: _, _, h => by simp [lexLe] at h
  | _ :: _, [], h, _ => by simp [lexLe] at h
  | x :: a, y :: b, h, h' => by
    unfold lexLe at h h'
    by_cases hxy : x < y
    · have hyx : ¬ y < x := UInt8.lt_asymm hxy
      simp [hxy, hyx] at h'
    · by_cases hyx : y < x
      · simp [hxy, hyx] at h
      · simp only [hxy, hyx, ite_false] at h h'
        rw [UInt8.le_antisymm (UInt8.not_lt.mp hyx) (UInt8.not_lt.mp hxy), lexLe_antisymm h h']

theorem lexLe_trans : ∀ {a b c : Bytes}, lexLe a b = true → lexLe b c = true → lexLe a c = true
  | [], _, _, _, _ => rfl
  | _ :: _, [], _, h, _ => by simp [lexLe] at h
  | _ :: _, _ :: _, [], _, h => by simp [lexLe] at h
  | x :: a, y :: b, z :: c, h, h' => by
    unfold lexLe at h h' ⊢
    by_cases hxz : x < z
    · rw [if_pos hxz]
    · by_cases hxy : x < y
      · have hzy : z < y := UInt8.lt_of_le_of_lt (UInt8.not_lt.mp hxz) hxy
        simp [hzy, UInt8.lt_asymm hzy] at h'
      · by_cases hyx : y < x
        · simp [hxy, hyx] at h
        · obtain rfl : x = y := UInt8.le_antisymm (UInt8.not_lt.mp hyx) (UInt8.not_lt.mp hxy)
          by_cases hzx : z < x
          · simp [hxz, hzx] at h'
          · simp only [hxy, hxz, hzx, ite_false] at h h' ⊢
            exact lexLe_trans h h'

theorem pending_sorted (pool : Mempool K) : pool.pending.Pairwise fun a b => lexLe a.1.1 b.1.1 = true := by
  have htotal : Std.Total fun a b : Hash256 × Transaction => lexLe a.1.1 b.1.1 = true :=
    ⟨fun a b => lexLe_total a.1.1 b.1.1⟩
  have htrans : IsTrans (Hash256 × Transaction) fun a b => lexLe a.1.1 b.1.1 = true :=
    ⟨fun _ _ _ => lexLe_trans⟩
  exact List.pairwise_insertionSort _ _

theorem pending_eq_of_perm {pool other : Mempool K} (h : other.snapshot.Perm pool.snapshot) :
    other.pending = pool.pending := by
  have hentries : ∀ pool : Mempool K, pool.pending.Perm (pool.snapshot.map fun tx => (tx.id K, tx)) := by
    intro pool
    refine (pending_perm pool).trans ?_
    rw [Mempool.snapshot, List.map_map]
    apply List.Perm.of_eq
    apply List.map_congr_left
    intro entry hentry
    have hid := (keyed_id (AList.mem_lookup_iff.mpr hentry)).2
    exact Prod.ext hid rfl
  have hperm : other.pending.Perm pool.pending :=
    (hentries other).trans ((h.map _).trans (hentries pool).symm)
  refine hperm.eq_of_pairwise ?_ (pending_sorted other) (pending_sorted pool)
  intro a b ha hb hab hba
  have hkey : a.1 = b.1 := Subtype.ext (lexLe_antisymm hab hba)
  exact List.inj_on_of_nodup_map (pending_nodup pool) (hperm.subset ha) hb hkey

/-! ## Soundness and completeness -/

/-- Each transaction finds its inputs in `u` as the transactions before it leave it. -/
def InOrder (K : Crypto) (txs : List Transaction) (u : UTXOSet) : Prop :=
  Coins.InOrder (txs.map (Transaction.poolEntry K)) u

theorem poolEntries_fresh {pool : Mempool K} {u : UTXOSet}
    (hnew : ∀ k ∈ u, ∀ tx ∈ pool.snapshot, k.txid ≠ tx.id K) :
    Coins.Fresh (pool.snapshot.map (Transaction.poolEntry K)) u := by
  have hcreated : Coins.created (pool.snapshot.map (Transaction.poolEntry K)) =
      Coins.created (pool.snapshot.map (Transaction.entry K)) := by
    unfold Coins.created
    rw [List.flatMap_map, List.flatMap_map]
    rfl
  have hfresh := entries_fresh hnew
  refine ⟨?_, ?_⟩
  · rw [hcreated]
    exact hfresh.nodup
  · rw [hcreated]
    exact hfresh.absent

theorem Mempool.Consistent.points_nodup {pool : Mempool K} (h : pool.Consistent) {tx : Transaction}
    (htx : tx ∈ pool.snapshot) : tx.points.Nodup :=
  (List.nodup_flatMap.mp h.inputs).1 tx htx

theorem ordered_sound {pool : Mempool K} {u : UTXOSet} {ordered : List Transaction}
    (ho : pool.orderedTransactions u = .ok ordered) (hne : ordered ≠ []) :
    ordered.Perm pool.snapshot ∧ InOrder K ordered u := by
  rcases orderLoop_cases (pending_orderable pool) (taking_start (pending_orderable pool)) ho with hnil | ⟨hperm, w, hw⟩
  · exact absurd hnil hne
  · exact ⟨hperm.trans (pending_snapshot pool), Coins.inOrder_of_applyAll hw⟩

/-- The order is sound, complete and the same for every order of the map, and the loop that finds it ends. -/
theorem ordering_sound_complete {pool : Mempool K} (h : pool.Consistent) (u : UTXOSet) :
    ∃ ordered, pool.orderedTransactions u = .ok ordered ∧
      OrderRun K pool.pending ⟨u, [], (pool.pending.map Prod.fst).toFinset⟩ ordered ∧
      (ordered ≠ [] → ordered.Perm pool.snapshot ∧ InOrder K ordered u) ∧
      ((∀ k ∈ u, ∀ tx ∈ pool.snapshot, k.txid ≠ tx.id K) →
        (∃ order, order.Perm pool.snapshot ∧ InOrder K order u) → ordered.Perm pool.snapshot ∧ InOrder K ordered u) ∧
      ∀ other : Mempool K, other.snapshot.Perm pool.snapshot → other.orderedTransactions u = .ok ordered := by
  obtain ⟨ordered, ho⟩ := orderedTransactions_returns pool u
  refine ⟨ordered, ho, orderedTransactions_run ho, ordered_sound ho, ?_, ?_⟩
  · rintro hnew ⟨order, hperm, horder⟩
    have hfresh := poolEntries_fresh hnew
    have hentries := hperm.map (Transaction.poolEntry K)
    have hnodup : ∀ e ∈ order.map (Transaction.poolEntry K), e.inputs.Nodup := by
      intro e he
      obtain ⟨tx, htx, rfl⟩ := List.mem_map.mp he
      exact h.points_nodup (hperm.subset htx)
    obtain ⟨w, hw⟩ := Coins.applyAll_of_inOrder horder hnodup (hfresh.perm hentries.symm)
    obtain ⟨found, w', hfound, hperm', hw'⟩ :=
      orderedTransactions_complete ((Coins.applicable_of_applyAll hw).perm hentries) hfresh
    rw [ho, Except.ok.injEq] at hfound
    subst hfound
    exact ⟨hperm', Coins.inOrder_of_applyAll hw'⟩
  · intro other hsame
    rw [← ho]
    unfold Mempool.orderedTransactions
    rw [pending_eq_of_perm hsame]

end

/-! ## A parent and its child -/

def toyUtxos : UTXOSet := ((rebuildUtxoSet toyCrypto [toyGenesis, toyFirst]).toOption).getD ∅

def toyFamily : Mempool toyCrypto := Mempool.after
  [.accept (toySpend (toyCoinbase 1) 5) toyUtxos, .accept (toySpend (toySpend (toyCoinbase 1) 5) 4) toyUtxos]

theorem ordering_sound_complete_toy : toyFamily.Consistent ∧ toyFamily.size = 2 ∧ ∃ ordered,
    toyFamily.orderedTransactions toyUtxos = .ok ordered ∧ ordered.Perm toyFamily.snapshot ∧
    InOrder toyCrypto ordered toyUtxos := by
  have hpool : toyFamily.Consistent := after_consistent _
  obtain ⟨ordered, ho, -, hsound, -⟩ := ordering_sound_complete hpool toyUtxos
  have hsome : toyFamily.orderedTransactions toyUtxos ≠ .ok [] := by decide +kernel
  have hne : ordered ≠ [] := by
    rintro rfl
    exact hsome ho
  exact ⟨hpool, by decide +kernel, ordered, ho, hsound hne⟩

end Caesar
