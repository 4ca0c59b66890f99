import Caesar.OrderSound
import Caesar.VettedSound
import Mathlib

/-!
# What survives a reorganisation

A set of pool transactions can stay together when each input of a member is an
outpoint of the new chain or an output of a member. `revalidateMempoolAfterReorg`
decides one transaction at a time, parents first; each decision agrees with the
greatest such set (`Reviving.decide`), so the pool it leaves is that set
(`revalidation_greatest`), in whatever order the old pool is walked.
-/

namespace Caesar

open Codec

/-! ## The greatest set -/

section
variable (K : Crypto) (old : List Transaction) (u : UTXOSet)

def supported : Set Transaction →o Set Transaction where
  toFun S := {tx | tx ∈ old ∧ ∀ k ∈ tx.points, k ∈ u ∨ ∃ p ∈ S, k ∈ (p.entry K).keys}
  monotone' := by
    intro S T hST tx htx
    refine ⟨htx.1, ?_⟩
    intro k hk
    rcases htx.2 k hk with hku | ⟨p, hp, hkp⟩
    · exact Or.inl hku
    · exact Or.inr ⟨p, hST hp, hkp⟩

def Survives (S : Set Transaction) : Prop :=
  (∀ tx ∈ S, tx ∈ old) ∧ ∀ tx ∈ S, ∀ k ∈ tx.points, k ∈ u ∨ ∃ p ∈ S, k ∈ (p.entry K).keys

end

section
variable {K : Crypto} {old : List Transaction} {u : UTXOSet}

theorem survives_iff {S : Set Transaction} : Survives K old u S ↔ S ≤ supported K old u S := by
  constructor
  · intro h tx htx
    exact ⟨h.1 tx htx, h.2 tx htx⟩
  · intro h
    exact ⟨fun tx htx => (h htx).1, fun tx htx => (h htx).2⟩

theorem gfp_greatest : IsGreatest {S | Survives K old u S} (supported K old u).gfp := by
  have hset : {S | Survives K old u S} = {S | S ≤ supported K old u S} := Set.ext fun S => survives_iff
  rw [hset]
  exact (supported K old u).isGreatest_gfp_le

theorem mem_gfp {tx : Transaction} : tx ∈ (supported K old u).gfp ↔
    tx ∈ old ∧ ∀ k ∈ tx.points, k ∈ u ∨ ∃ p ∈ (supported K old u).gfp, k ∈ (p.entry K).keys := by
  nth_rewrite 1 [← (supported K old u).map_gfp]
  rfl

end

section
variable {K : Crypto}

/-! ## One decision -/

/-- Between two decisions: the pool has the members of the greatest set that are decided. -/
structure Reviving (old : Mempool K) (chain : List Block) (u : UTXOSet) (pool : Mempool K) (pending : Finset Hash256) :
    Prop where
  consistent : pool.Consistent
  within : ∀ id ∈ pending, id ∈ old.snapshot.map (Transaction.id K)
  members : ∀ tx, tx ∈ pool.snapshot ↔ tx ∈ (supported K old.snapshot u).gfp ∧ tx.id K ∉ pending
  offChain : ∀ tx ∈ pool.snapshot, tx.id K ∉ (ledger chain).map (Transaction.id K)
  applicable : Coins.Applicable (pool.snapshot.map (Transaction.entry K)) u

structure Reorganised (txs : List Transaction) (old : Mempool K) (chain : List Block) (u : UTXOSet) (t : UInt64) :
    Prop where
  collisionFree : CollisionFree K (txs.map Transaction.bytes)
  consistent : old.Consistent
  vetted : ∀ tx ∈ old.snapshot, Vetted K txs tx
  replay : Replay K chain u t
  onChain : ∀ tx ∈ ledger chain, tx ∈ txs
  distinct : ((ledger chain).map (Transaction.id K)).Nodup
  acyclic : Acyclic K old.snapshot

variable {txs : List Transaction} {old pool after : Mempool K} {chain : List Block} {u : UTXOSet} {t : UInt64}
  {pending : Finset Hash256} {tx : Transaction}

theorem Reviving.sub (h : Reviving old chain u pool pending) (htx : tx ∈ pool.snapshot) : tx ∈ old.snapshot :=
  (mem_gfp.mp ((h.members tx).mp htx).1).1

theorem Reorganised.placeable (hx : Reorganised txs old chain u t) (h : Reviving old chain u pool pending) :
    Placeable K pool.snapshot u :=
  ⟨fun _ hp => (hx.vetted _ (h.sub hp)).plain, h.applicable, fresh_of_offChain hx.replay h.offChain⟩

theorem Reviving.unspent (h : Reviving old chain u pool pending) (hold : old.Consistent) (htx : tx ∈ old.snapshot)
    (hout : tx ∉ pool.snapshot) {k : OutPoint} (hk : k ∈ tx.points) {p : Transaction} (hp : p ∈ pool.snapshot) :
    k ∉ p.points := by
  intro hkp
  have hpair := (List.nodup_flatMap.mp hold.inputs).2
  have hne : tx ≠ p := by
    rintro rfl
    exact hout hp
  have hsymm : Std.Symm (Function.onFun List.Disjoint Transaction.points) := ⟨fun _ _ hab => List.Disjoint.symm hab⟩
  have hdisjoint : Function.onFun List.Disjoint Transaction.points tx p := hpair.forall htx (h.sub hp) hne
  exact hdisjoint hk hkp

theorem Reorganised.available (hx : Reorganised txs old chain u t) (h : Reviving old chain u pool pending)
    (htx : tx ∈ old.snapshot) (hout : tx ∉ pool.snapshot) {ordered : List Transaction} {w : UTXOSet}
    (hperm : ordered.Perm pool.snapshot) (hw : Coins.applyAll (ordered.map (Transaction.entry K)) u = some w)
    {k : OutPoint} (hk : k ∈ tx.points) : k ∈ w ↔ k ∈ u ∨ ∃ p ∈ pool.snapshot, k ∈ (p.entry K).keys := by
  have hcreated : k ∈ (Coins.created (ordered.map (Transaction.entry K))).map Prod.fst ↔
      ∃ p ∈ pool.snapshot, k ∈ (p.entry K).keys := by
    rw [Coins.mem_created_keys]
    constructor
    · rintro ⟨e, he, hke⟩
      obtain ⟨p, hp, rfl⟩ := List.mem_map.mp he
      exact ⟨p, hperm.subset hp, hke⟩
    · rintro ⟨p, hp, hkp⟩
      exact ⟨p.entry K, List.mem_map_of_mem (hperm.symm.subset hp), hkp⟩
  have hunspent : k ∉ Coins.spent (ordered.map (Transaction.entry K)) := by
    intro hs
    obtain ⟨e, he, hke⟩ := Coins.mem_spent.mp hs
    obtain ⟨p, hp, rfl⟩ := List.mem_map.mp he
    have hmem := hperm.subset hp
    rw [plain_inputs (hx.vetted p (h.sub hmem)).plain] at hke
    exact h.unspent hx.consistent htx hout hk hmem hke
  rw [← hcreated]
  constructor
  · exact Coins.mem_of_applyAll hw
  · intro hk'
    exact Coins.mem_applyAll hw hk' hunspent

theorem Reviving.room (h : Reviving old chain u pool pending) (hold : old.Consistent) (htx : tx ∈ old.snapshot)
    (hout : tx ∉ pool.snapshot) : pool.size < maxTransactions ∧
      tx.fullBytes.length ≤ maxTransactionBytes ∧ pool.mempoolBytes + tx.fullBytes.length ≤ maxMempoolBytes := by
  have hnodup : (tx :: pool.snapshot).Nodup :=
    List.nodup_cons.mpr ⟨hout, List.Nodup.of_map _ (snapshot_ids_nodup pool)⟩
  have hsub : (tx :: pool.snapshot).Subperm old.snapshot := by
    refine List.subperm_of_subset hnodup ?_
    intro p hp
    rcases List.mem_cons.mp hp with rfl | hp
    · exact htx
    · exact h.sub hp
  obtain ⟨l, hperm, hl⟩ := hsub
  have hweight : weight (tx :: pool.snapshot) ≤ weight old.snapshot := by
    rw [← weight_perm hperm]
    exact (hl.map _).sum_le_sum fun _ _ => Nat.zero_le _
  have hlen := hperm.length_eq ▸ hl.length_le
  have hcount := hold.count
  have hroom := hold.room
  rw [hold.bytes] at hroom
  rw [weight_cons, ← h.consistent.bytes] at hweight
  rw [List.length_cons] at hlen
  refine ⟨?_, hold.each tx htx, ?_⟩
  · rw [size_eq]
    omega
  · omega

theorem Reorganised.present_iff (hx : Reorganised txs old chain u t) (h : Reviving old chain u pool pending)
    (htx : tx ∈ old.snapshot) (hout : tx ∉ pool.snapshot) (hready : ∀ input ∈ tx.inputs, input.previousTxid ∉ pending)
    {ordered : List Transaction} {w : UTXOSet} (hperm : ordered.Perm pool.snapshot)
    (hw : Coins.applyAll (ordered.map (Transaction.entry K)) u = some w) :
    (∀ k ∈ tx.points, k ∈ w) ↔ tx ∈ (supported K old.snapshot u).gfp := by
  rw [mem_gfp, and_iff_right htx]
  refine forall₂_congr fun k hk => ?_
  rw [hx.available h htx hout hperm hw hk]
  refine or_congr_right ⟨?_, ?_⟩
  · rintro ⟨p, hp, hkp⟩
    exact ⟨p, ((h.members p).mp hp).1, hkp⟩
  · rintro ⟨p, hp, hkp⟩
    refine ⟨p, (h.members p).mpr ⟨hp, ?_⟩, hkp⟩
    rw [← entry_txid hkp]
    obtain ⟨input, hin, rfl⟩ := List.mem_map.mp hk
    exact hready input hin

theorem Reviving.decided_iff (h : Reviving old chain u pool pending) (htx : tx ∈ old.snapshot) (p : Transaction) :
    p ∈ (supported K old.snapshot u).gfp ∧ p.id K ∉ pending.erase (tx.id K) ↔
      p ∈ pool.snapshot ∨ p = tx ∧ tx ∈ (supported K old.snapshot u).gfp := by
  rw [h.members p, Finset.mem_erase, not_and_or, not_not, and_or_left, or_comm]
  refine or_congr_right ⟨?_, ?_⟩
  · rintro ⟨hp, hid⟩
    obtain rfl := List.inj_on_of_nodup_map (snapshot_ids_nodup old) (mem_gfp.mp hp).1 htx hid
    exact ⟨rfl, hp⟩
  · rintro ⟨rfl, hp⟩
    exact ⟨hp, rfl⟩

theorem Reorganised.offChain (hx : Reorganised txs old chain u t) (h : Reviving old chain u pool pending)
    (htx : tx ∈ old.snapshot) {ordered : List Transaction} {w : UTXOSet} (hperm : ordered.Perm pool.snapshot)
    (hw : Coins.applyAll (ordered.map (Transaction.entry K)) u = some w) (hpoints : ∀ k ∈ tx.points, k ∈ w) :
    tx.id K ∉ (ledger chain).map (Transaction.id K) := by
  have hvet := hx.vetted tx htx
  obtain ⟨k, hk⟩ := List.exists_mem_of_ne_nil _ hvet.points_ne_nil
  have hsame : ∀ tx' ∈ ledger chain, tx'.id K = tx.id K → (tx'.entry K).inputs = tx.points := by
    intro tx' htx' hid
    have hstrip := strip_eq hx.collisionFree (hx.onChain tx' htx') hvet.inPlay
      (ledger_fits hx.replay tx' htx').toBaseFits hvet.fits.toBaseFits hid
    rw [← entry_inputs_strip, hstrip, entry_inputs_strip, plain_inputs hvet.plain]
  exact offChain_of_present hx.distinct hx.replay h.offChain hperm hw hsame hk (hpoints k hk)

theorem Reviving.free (h : Reviving old chain u pool pending) (hold : old.Consistent) (htx : tx ∈ old.snapshot)
    (hout : tx ∉ pool.snapshot) : ∀ k ∈ tx.points, k ∉ pool.reservedInputs := by
  intro k hk hr
  rw [h.consistent.reserved, List.mem_toFinset] at hr
  obtain ⟨p, hp, hkp⟩ := List.mem_flatMap.mp hr
  exact h.unspent hold htx hout hk hp hkp

/-- The decision about a transaction agrees with the greatest set. -/
theorem Reviving.decide (hx : Reorganised txs old chain u t) (h : Reviving old chain u pool pending)
    (htx : tx ∈ old.snapshot) (hpending : tx.id K ∈ pending)
    (hready : ∀ input ∈ tx.inputs, input.previousTxid ∉ pending) {reason : MempoolRejectReason}
    (hacc : pool.accept tx u = .ok (reason, after)) : Reviving old chain u after (pending.erase (tx.id K)) := by
  have hvet := hx.vetted tx htx
  have hout : tx ∉ pool.snapshot := fun hmem => ((h.members tx).mp hmem).2 hpending
  have hnew : pool.contains (tx.id K) = false := by
    rw [Bool.eq_false_iff, ne_eq, contains_iff]
    rintro ⟨p, hp, hid⟩
    exact ((h.members p).mp hp).2 (hid ▸ hpending)
  obtain ⟨ordered, w, hperm, hw, heff⟩ := buildEffectiveUtxo_ok (hx.placeable h)
  have hgenuine : Genuine K txs w := (hx.replay.genuine hx.onChain).applyAll
    (fun p hp => ⟨(hx.vetted p (h.sub (hperm.subset hp))).inPlay, (snapshot_fits (hperm.subset hp)).toBaseFits⟩) hw
  have hpresent := hx.present_iff h htx hout hready hperm hw
  have hwithin : ∀ id ∈ pending.erase (tx.id K), id ∈ old.snapshot.map (Transaction.id K) := fun id hid =>
    h.within id (Finset.mem_of_mem_erase hid)
  by_cases hin : tx ∈ (supported K old.snapshot u).gfp
  · have hpoints := hpresent.mpr hin
    have hwit := hvet.valid hx.collisionFree hgenuine hpoints
    obtain ⟨hcount, hsize, hroom⟩ := h.room hx.consistent htx hout
    obtain ⟨admitted, hadmit⟩ := accept_admits hvet.fits hnew hcount hsize hroom (h.free hx.consistent htx hout) heff
      (validateForMempool_of_witness hwit) hwit
    have hsame := hacc.symm.trans hadmit
    rw [Except.ok.injEq, Prod.mk.injEq] at hsame
    obtain ⟨rfl, rfl⟩ := hsame
    rcases accept_ok hacc with ⟨hne, -⟩ | ⟨-, hsnap, -⟩
    · exact absurd rfl hne
    · have hoff := hx.offChain h htx hperm hw hpoints
      refine ⟨h.consistent.accept hacc, hwithin, ?_, ?_, ?_⟩
      · intro p
        rw [h.decided_iff htx p, hsnap, List.mem_cons, or_comm]
        simp [hin]
      · rw [hsnap, List.forall_mem_cons]
        exact ⟨hoff, h.offChain⟩
      · rw [hsnap]
        exact applicable_cons hperm hw hvet.plain hvet.fits.toBaseFits (authorized_of_validate hwit).nodup hpoints hnew
          fun j hj he => hoff (he ▸ utxo_txid hx.replay hj)
  · rcases accept_ok hacc with ⟨-, rfl⟩ | ⟨-, -, -, -, -, -, w', heff', hwit⟩
    · refine ⟨h.consistent, hwithin, ?_, h.offChain, h.applicable⟩
      intro p
      rw [h.decided_iff htx p]
      simp [hin]
    · rw [heff, Except.ok.injEq, Option.some.injEq] at heff'
      subst heff'
      exact absurd (hpresent.mp (authorized_of_validate hwit).present) hin

/-! ## The loop -/

inductive RevalidateRun (K : Crypto) (u : UTXOSet) (snapshot : List Transaction) :
    Mempool K → Finset Hash256 → Mempool K → Prop
  | done {pool : Mempool K} : RevalidateRun K u snapshot pool ∅ pool
  | stuck {pool pool' : Mempool K} {pending pending' : Finset Hash256} : pending ≠ ∅ →
    revalidatePass K u snapshot pool pending false = (.ok (pending', false), pool') →
    RevalidateRun K u snapshot pool pending pool'
  | next {pool pool' result : Mempool K} {pending pending' : Finset Hash256} : pending ≠ ∅ →
    revalidatePass K u snapshot pool pending false = (.ok (pending', true), pool') →
    RevalidateRun K u snapshot pool' pending' result → RevalidateRun K u snapshot pool pending result

theorem Reviving.pass (hx : Reorganised txs old chain u t) : ∀ {l : List Transaction} {pool : Mempool K}
    {pending : Finset Hash256} (progress : Bool), (∀ tx ∈ l, tx ∈ old.snapshot) → Reviving old chain u pool pending →
    ∃ pending' progress' pool', revalidatePass K u l pool pending progress = (.ok (pending', progress'), pool') ∧
      Reviving old chain u pool' pending' ∧
      (progress' = progress ∧ pending' = pending ∧
          (∀ tx ∈ l, tx.id K ∈ pending → ∃ input ∈ tx.inputs, input.previousTxid ∈ pending) ∨
        progress' = true ∧ pending'.card < pending.card)
  | [], pool, pending, progress, _, h => ⟨pending, progress, pool, rfl, h, Or.inl ⟨rfl, rfl, by simp⟩⟩
  | tx :: l, pool, pending, progress, hl, h => by
    rw [List.forall_mem_cons] at hl
    have hid : tx.txid K = .ok (tx.id K) := txid_eq_id (snapshot_fits hl.1)
    -- passing over the transaction leaves the rest of the pass
    have hskip : (tx.id K ∈ pending → ∃ input ∈ tx.inputs, input.previousTxid ∈ pending) →
        revalidatePass K u (tx :: l) pool pending progress = revalidatePass K u l pool pending progress →
        ∃ pending' progress' pool',
          revalidatePass K u (tx :: l) pool pending progress = (.ok (pending', progress'), pool') ∧
          Reviving old chain u pool' pending' ∧
          (progress' = progress ∧ pending' = pending ∧
              (∀ p ∈ tx :: l, p.id K ∈ pending → ∃ input ∈ p.inputs, input.previousTxid ∈ pending) ∨
            progress' = true ∧ pending'.card < pending.card) := by
      intro hwaits heq
      obtain ⟨pending', progress', pool', hpass, hrev, hres⟩ := Reviving.pass hx progress hl.2 h
      refine ⟨pending', progress', pool', heq.trans hpass, hrev, ?_⟩
      rcases hres with ⟨hp, hsame, hall⟩ | hless
      · exact Or.inl ⟨hp, hsame, List.forall_mem_cons.mpr ⟨hwaits, hall⟩⟩
      · exact Or.inr hless
    by_cases hpending : tx.id K ∈ pending
    · by_cases hwaits : (tx.inputs.any fun input => input.previousTxid ∈ pending) = true
      · refine hskip ?_ ?_
        · intro _
          obtain ⟨input, hin, hp⟩ := List.any_eq_true.mp hwaits
          exact ⟨input, hin, of_decide_eq_true hp⟩
        · rw [revalidatePass, hid]
          dsimp only
          rw [if_neg (not_not.mpr hpending), if_pos hwaits]
      · have hready : ∀ input ∈ tx.inputs, input.previousTxid ∉ pending := by
          intro input hin hp
          exact hwaits (List.any_eq_true.mpr ⟨input, hin, decide_eq_true hp⟩)
        obtain ⟨⟨reason, after⟩, hacc⟩ := accept_returns (u := u) pool (snapshot_fits hl.1)
        obtain ⟨pending', progress', pool', hpass, hrev, hres⟩ :=
          Reviving.pass hx true hl.2 (h.decide hx hl.1 hpending hready hacc)
        have hless := Finset.card_erase_lt_of_mem hpending
        refine ⟨pending', progress', pool', ?_, hrev, Or.inr ?_⟩
        · rw [revalidatePass, hid]
          dsimp only
          rw [if_neg (not_not.mpr hpending), if_neg hwaits, hacc]
          exact hpass
        · rcases hres with ⟨hp, hsame, -⟩ | ⟨hp, hlt⟩
          · exact ⟨hp, hsame ▸ hless⟩
          · exact ⟨hp, hlt.trans hless⟩
    · refine hskip (fun hp => absurd hp hpending) ?_
      rw [revalidatePass, hid]
      dsimp only
      rw [if_pos hpending]

/-- Something that is pending waits for nothing, because there is no cycle. -/
theorem Reorganised.exists_ready (hx : Reorganised txs old chain u t) (h : Reviving old chain u pool pending)
    (hne : pending ≠ ∅) :
    ¬ ∀ tx ∈ old.snapshot, tx.id K ∈ pending → ∃ input ∈ tx.inputs, input.previousTxid ∈ pending := by
  intro hall
  have hparent : ∀ id ∈ pending, ∃ p ∈ old.snapshot.filter fun p => p.id K ∈ pending, p.id K = id := by
    intro id hid
    obtain ⟨p, hp, rfl⟩ := List.mem_map.mp (h.within id hid)
    exact ⟨p, List.mem_filter.mpr ⟨hp, decide_eq_true hid⟩, rfl⟩
  obtain ⟨id, hid⟩ := Finset.nonempty_iff_ne_empty.mpr hne
  obtain ⟨p, hp, -⟩ := hparent id hid
  obtain ⟨tx, hcycle⟩ := exists_cycle (R := Transaction.SpendsFrom K) (List.ne_nil_of_mem hp) fun a ha => by
      obtain ⟨hmem, hpending⟩ := List.mem_filter.mp ha
      obtain ⟨input, hin, hprev⟩ := hall a hmem (of_decide_eq_true hpending)
      obtain ⟨b, hb, hbid⟩ := hparent _ hprev
      exact ⟨b, hb, input, hin, hbid.symm⟩
  exact hx.acyclic.mono K (fun p hp => List.mem_of_mem_filter hp) tx hcycle

theorem Reviving.loop (hx : Reorganised txs old chain u t) {l : List Transaction} (hl : l.Perm old.snapshot)
    {passes : Nat} : ∀ {pool : Mempool K} {pending : Finset Hash256}, pending.card ≤ passes →
      Reviving old chain u pool pending →
      RevalidateRun K u l pool pending (revalidateLoop K u l passes pool pending).2 ∧
        Reviving old chain u (revalidateLoop K u l passes pool pending).2 ∅ := by
  induction passes with
  | zero =>
    intro pool pending hcard h
    obtain rfl := Finset.card_eq_zero.mp (Nat.le_zero.mp hcard)
    exact ⟨.done, h⟩
  | succ passes ih =>
    intro pool pending hcard h
    unfold revalidateLoop
    by_cases hne : pending = ∅
    · subst hne
      exact ⟨.done, h⟩
    · obtain ⟨pending', progress', pool', hpass, hrev, hres⟩ :=
        Reviving.pass hx false (fun tx htx => hl.subset htx) h
      rcases hres with ⟨-, -, hall⟩ | ⟨rfl, hless⟩
      · exact absurd (fun tx htx => hall tx (hl.symm.subset htx)) (hx.exists_ready h hne)
      · rw [if_neg hne, hpass]
        obtain ⟨hrun, hdone⟩ := ih (by omega) hrev
        exact ⟨.next hne hpass hrun, hdone⟩

theorem reviving_start :
    Reviving old chain u (Mempool.empty K) (old.snapshot.map (Transaction.id K)).toFinset := by
  refine ⟨empty_consistent, ?_, ?_, ?_, ?_⟩
  · intro id hid
    exact List.mem_toFinset.mp hid
  · intro tx
    rw [empty_snapshot]
    refine ⟨fun h => absurd h List.not_mem_nil, ?_⟩
    rintro ⟨hin, hnot⟩
    exact absurd (List.mem_toFinset.mpr (List.mem_map_of_mem (mem_gfp.mp hin).1)) hnot
  · rw [empty_snapshot]
    simp
  · exact Coins.applicable_of_applyAll (w := u) rfl

theorem Reorganised.revalidate (hx : Reorganised txs old chain u t) (walk : Walk K) :
    (old.size ≠ 0 → RevalidateRun K u (walk.order old) (Mempool.empty K) (old.snapshot.map (Transaction.id K)).toFinset
        (revalidateMempoolAfterReorg K walk old chain).2) ∧
      Reviving old chain u (revalidateMempoolAfterReorg K walk old chain).2 ∅ := by
  have hperm := walk.perm old
  by_cases hsize : old.size = 0
  · have hnil : old.snapshot = [] := List.eq_nil_of_length_eq_zero (size_eq old ▸ hsize)
    refine ⟨fun hne => absurd hsize hne, ?_⟩
    unfold revalidateMempoolAfterReorg
    rw [if_pos hsize]
    refine ⟨hx.consistent, by simp, ?_, by simp [hnil], ?_⟩
    · intro tx
      rw [hnil]
      refine ⟨fun h => absurd h List.not_mem_nil, fun h => ?_⟩
      exact (mem_gfp.mp h.1).1
    · rw [hnil]
      exact Coins.applicable_of_applyAll (w := u) rfl
  · have hne : (walk.order old).isEmpty = false := by
      rw [Bool.eq_false_iff, ne_eq, List.isEmpty_iff]
      intro hnil
      rw [size_eq, ← hperm.length_eq, hnil] at hsize
      exact hsize rfl
    have hids : (walk.order old).mapM (Transaction.txid K) = .ok ((walk.order old).map (Transaction.id K)) :=
      (mapM_ok (txid_ok K)).mpr ⟨fun tx htx => (snapshot_fits (hperm.subset htx)).toBaseFits, rfl⟩
    have hset : ((walk.order old).map (Transaction.id K)).toFinset = (old.snapshot.map (Transaction.id K)).toFinset :=
      List.toFinset_eq_of_perm _ _ (hperm.map _)
    have hcard : (old.snapshot.map (Transaction.id K)).toFinset.card ≤ (walk.order old).length := by
      rw [← hset]
      refine (List.toFinset_card_le _).trans ?_
      rw [List.length_map]
    obtain ⟨hrun, hdone⟩ := Reviving.loop hx hperm hcard reviving_start
    unfold revalidateMempoolAfterReorg
    simp only [if_neg hsize, hne, Bool.false_eq_true, if_false, rebuildUtxoSet_ok.mpr ⟨t, hx.replay⟩, hids, hset]
    exact ⟨fun _ => hrun, hdone⟩

/-- The pool after a reorganisation is the greatest set that can stay, in whatever order the old pool is walked; the
loop ends, and nothing is thrown. -/
theorem revalidation_greatest (hcf : CollisionFree K (txs.map Transaction.bytes)) {calls : List (PoolCall K)}
    (hcalls : ∀ call ∈ calls, call.Grounded txs) (hchain : rebuildUtxoSet K chain = .ok u)
    (hledger : ∀ tx ∈ ledger chain, tx ∈ txs) (hids : ((ledger chain).map (Transaction.id K)).Nodup)
    (hac : Acyclic K (Mempool.after calls).snapshot) (walk : Walk K) :
    (revalidateMempoolAfterReorg K walk (Mempool.after calls) chain).1 = .ok () ∧
    ((Mempool.after calls).size ≠ 0 → RevalidateRun K u (walk.order (Mempool.after calls)) (Mempool.empty K)
      ((Mempool.after calls).snapshot.map (Transaction.id K)).toFinset
      (revalidateMempoolAfterReorg K walk (Mempool.after calls) chain).2) ∧
    IsGreatest {S | Survives K (Mempool.after calls).snapshot u S}
      {tx | tx ∈ (revalidateMempoolAfterReorg K walk (Mempool.after calls) chain).2.snapshot} ∧
    ∀ walk' : Walk K,
      (revalidateMempoolAfterReorg K walk' (Mempool.after calls) chain).2.snapshot.Perm
          (revalidateMempoolAfterReorg K walk (Mempool.after calls) chain).2.snapshot ∧
        (revalidateMempoolAfterReorg K walk' (Mempool.after calls) chain).2.reservedInputs =
          (revalidateMempoolAfterReorg K walk (Mempool.after calls) chain).2.reservedInputs ∧
        (revalidateMempoolAfterReorg K walk' (Mempool.after calls) chain).2.mempoolBytes =
          (revalidateMempoolAfterReorg K walk (Mempool.after calls) chain).2.mempoolBytes := by
  obtain ⟨t, hr⟩ := rebuildUtxoSet_ok.mp hchain
  have hx : Reorganised txs (Mempool.after calls) chain u t :=
    ⟨hcf, after_consistent calls, after_vetted hcalls, hr, hledger, hids, hac⟩
  obtain ⟨hrun, hdone⟩ := hx.revalidate walk
  have hset : {tx | tx ∈ (revalidateMempoolAfterReorg K walk (Mempool.after calls) chain).2.snapshot} =
      (supported K (Mempool.after calls).snapshot u).gfp := by
    ext tx
    show tx ∈ (revalidateMempoolAfterReorg K walk (Mempool.after calls) chain).2.snapshot ↔ _
    rw [hdone.members tx]
    simp
  refine ⟨revalidate_returns hr walk _, hrun, ?_, ?_⟩
  · rw [hset]
    exact gfp_greatest
  · intro walk'
    obtain ⟨-, hdone'⟩ := hx.revalidate walk'
    have hperm : (revalidateMempoolAfterReorg K walk' (Mempool.after calls) chain).2.snapshot.Perm
        (revalidateMempoolAfterReorg K walk (Mempool.after calls) chain).2.snapshot := by
      refine (List.perm_ext_iff_of_nodup (List.Nodup.of_map _ (snapshot_ids_nodup _))
        (List.Nodup.of_map _ (snapshot_ids_nodup _))).mpr fun tx => ?_
      rw [hdone'.members tx, hdone.members tx]
    refine ⟨hperm, ?_, ?_⟩
    · rw [hdone'.consistent.reserved, hdone.consistent.reserved]
      exact List.toFinset_eq_of_perm _ _ (hperm.flatMap_right _)
    · rw [hdone'.consistent.bytes, hdone.consistent.bytes, weight_perm hperm]

end

/-! ## A parent and its child stay -/

def toyLineage : List Transaction := [toyCoinbase 1, toySpend (toyCoinbase 1) 5, toySpend (toySpend (toyCoinbase 1) 5) 4]

theorem toyUtxos_rebuilt : rebuildUtxoSet toyCrypto [toyGenesis, toyFirst] = .ok toyUtxos := by
  have hvalid : validateCandidateChain toyCrypto [toyGenesis, toyFirst] = .ok true := by decide +kernel
  obtain ⟨u, t, hr⟩ := candidate_iff.mp hvalid
  have hu := rebuildUtxoSet_ok.mpr ⟨t, hr⟩
  rw [toyUtxos, hu]
  rfl

theorem toyFamily_grounded : ∀ call ∈ ([.accept (toySpend (toyCoinbase 1) 5) toyUtxos,
    .accept (toySpend (toySpend (toyCoinbase 1) 5) 4) toyUtxos] : List (PoolCall toyCrypto)),
    call.Grounded toyLineage := by
  have hledger : ∀ p ∈ ledger [toyGenesis, toyFirst], p ∈ toyLineage := by decide +kernel
  intro call hcall
  rcases List.mem_cons.mp hcall with rfl | hcall
  · exact ⟨by simp [toyLineage], _, toyUtxos_rebuilt, hledger⟩
  · rw [List.mem_singleton.mp hcall]
    exact ⟨by simp [toyLineage], _, toyUtxos_rebuilt, hledger⟩

theorem revalidation_greatest_toy : toyFamily.size = 2 ∧
    IsGreatest {S | Survives toyCrypto toyFamily.snapshot toyUtxos S}
      {tx | tx ∈ (revalidateMempoolAfterReorg toyCrypto toyWalk toyFamily [toyGenesis, toyFirst]).2.snapshot} := by
  have hcf : CollisionFree toyCrypto (toyLineage.map Transaction.bytes) := by
    unfold CollisionFree
    decide +kernel
  have hac : Acyclic toyCrypto toyFamily.snapshot := acyclic_of_rank toyCrypto toyRank (by decide +kernel)
  exact ⟨by decide +kernel, (revalidation_greatest hcf toyFamily_grounded toyUtxos_rebuilt (by decide +kernel)
    (by decide +kernel) hac toyWalk).2.2.1⟩

end Caesar
