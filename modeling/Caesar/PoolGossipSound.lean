import Caesar.GossipSound
import Caesar.SurvivorSound
import Caesar.BuildSound

/-!
# Transactions flood the mesh

The nodes have one chain, and the transactions that are brought in would all fit
into one pool. A pool takes such a transaction exactly when its parents are on the
chain or in the pool, so it waits for nothing but its parents; and it passes on
what it takes. So once no frame is on its way the connected pools are the same.
-/

namespace Caesar

open Codec Flood

section
variable {K : Crypto}

/-! ## One pool -/

def lineage (all : Mempool K) (u : UTXOSet) : Flood.Order Transaction where
  ready S tx := tx ∈ (supported K all.snapshot u).gfp ∧ ∀ p ∈ (supported K all.snapshot u).gfp, tx.SpendsFrom K p → p ∈ S
  mono := by
    intro S T tx hsub hr
    exact ⟨hr.1, fun p hp hs => hsub (hr.2 p hp hs)⟩

/-- A pool on its way to all of the transactions that can stay together. -/
structure Settles (all : Mempool K) (chain : List Block) (u : UTXOSet) (pool : Mempool K) : Prop where
  consistent : pool.Consistent
  within : ∀ tx ∈ pool.snapshot, tx ∈ (supported K all.snapshot u).gfp
  offChain : ∀ tx ∈ pool.snapshot, tx.id K ∉ (ledger chain).map (Transaction.id K)
  applicable : Coins.Applicable (pool.snapshot.map (Transaction.entry K)) u

variable {txs : List Transaction} {all pool : Mempool K} {chain : List Block} {u : UTXOSet} {t : UInt64} {tx : Transaction}

theorem settles_empty : Settles all chain u (Mempool.empty K) := by
  refine ⟨empty_consistent, ?_, ?_, Coins.applicable_of_applyAll (w := u) rfl⟩
  all_goals simp [empty_snapshot]

theorem Reviving.settles {pending : Finset Hash256} (h : Reviving all chain u pool pending) : Settles all chain u pool :=
  ⟨h.consistent, fun tx htx => ((h.members tx).mp htx).1, h.offChain, h.applicable⟩

theorem Settles.reviving (h : Settles all chain u pool) : ∃ pending, Reviving all chain u pool pending ∧
    ∀ id, id ∈ pending ↔ ∃ p ∈ (supported K all.snapshot u).gfp, p ∉ pool.snapshot ∧ p.id K = id := by
  classical
  have hpending : ∀ id, id ∈ ((all.snapshot.filter fun p => p ∈ (supported K all.snapshot u).gfp ∧ p ∉ pool.snapshot).map
      (Transaction.id K)).toFinset ↔ ∃ p ∈ (supported K all.snapshot u).gfp, p ∉ pool.snapshot ∧ p.id K = id := by
    intro id
    simp only [List.mem_toFinset, List.mem_map, List.mem_filter, decide_eq_true_eq]
    constructor
    · rintro ⟨p, ⟨-, hp, hout⟩, hid⟩
      exact ⟨p, hp, hout, hid⟩
    · rintro ⟨p, hp, hout, hid⟩
      exact ⟨p, ⟨(mem_gfp.mp hp).1, hp, hout⟩, hid⟩
  refine ⟨_, ⟨h.consistent, fun id hid => ?_, fun tx => ?_, h.offChain, h.applicable⟩, hpending⟩
  · obtain ⟨p, hp, -, rfl⟩ := (hpending id).mp hid
    exact List.mem_map_of_mem (mem_gfp.mp hp).1
  · rw [hpending]
    constructor
    · intro htx
      refine ⟨h.within tx htx, ?_⟩
      rintro ⟨p, hp, hout, hid⟩
      have hsame := List.inj_on_of_nodup_map (snapshot_ids_nodup all) (mem_gfp.mp hp).1
        (mem_gfp.mp (h.within tx htx)).1 hid
      exact hout (hsame ▸ htx)
    · rintro ⟨hin, hnot⟩
      by_contra hout
      exact hnot ⟨tx, hin, hout, rfl⟩

theorem Reorganised.gfp_offChain (hx : Reorganised txs all chain u t) (h : tx ∈ (supported K all.snapshot u).gfp) :
    tx.id K ∉ (ledger chain).map (Transaction.id K) := by
  have hrev := (hx.revalidate ⟨Mempool.snapshot, fun _ => .refl _⟩).2
  exact hrev.offChain tx ((hrev.members tx).mpr ⟨h, by simp⟩)

theorem Settles.ready_of_available (hx : Reorganised txs all chain u t) (h : Settles all chain u pool)
    (htx : tx ∈ all.snapshot) (hin : ∀ k ∈ tx.points, k ∈ u ∨ ∃ p ∈ pool.snapshot, k ∈ (p.entry K).keys) :
    (lineage all u).ready {p | p ∈ pool.snapshot} tx := by
  refine ⟨mem_gfp.mpr ⟨htx, fun k hk => (hin k hk).imp_right ?_⟩, ?_⟩
  · rintro ⟨p, hp, hkp⟩
    exact ⟨p, h.within p hp, hkp⟩
  · rintro p hp ⟨input, hinput, hid⟩
    rcases hin input.point (List.mem_map_of_mem hinput) with hk | ⟨q, hq, hk⟩
    · exact absurd (hid ▸ utxo_txid hx.replay hk) (hx.gfp_offChain hp)
    · have hsame := List.inj_on_of_nodup_map (snapshot_ids_nodup all) (mem_gfp.mp (h.within q hq)).1 (mem_gfp.mp hp).1
        ((entry_txid hk).symm.trans hid)
      exact hsame ▸ hq

theorem Settles.accept (hx : Reorganised txs all chain u t) (h : Settles all chain u pool) (htx : tx ∈ all.snapshot) :
    ∃ reason after, pool.accept tx u = .ok (reason, after) ∧
      (reason ≠ .none ∧ after = pool ∧ (tx ∈ pool.snapshot ∨ ¬ (lineage all u).ready {p | p ∈ pool.snapshot} tx) ∨
        reason = .none ∧ after.snapshot = tx :: pool.snapshot ∧ (lineage all u).ready {p | p ∈ pool.snapshot} tx ∧
          Settles all chain u after) := by
  obtain ⟨⟨reason, after⟩, hacc⟩ := accept_returns (u := u) pool (snapshot_fits htx)
  obtain ⟨pending, hrev, hpending⟩ := h.reviving
  -- where the parents are there, a revalidation would decide about the transaction now
  have hdecide : tx ∉ pool.snapshot → (lineage all u).ready {p | p ∈ pool.snapshot} tx →
      Reviving all chain u after (pending.erase (tx.id K)) := by
    intro hout hr
    refine hrev.decide hx htx ((hpending _).mpr ⟨tx, hr.1, hout, rfl⟩) (fun input hinput hp => ?_) hacc
    obtain ⟨p, hp, hmissing, hid⟩ := (hpending _).mp hp
    exact hmissing (hr.2 p hp ⟨input, hinput, hid.symm⟩)
  refine ⟨reason, after, hacc, ?_⟩
  rcases accept_ok hacc with ⟨hne, hsame⟩ | ⟨hnone, hsnap, -, hnew, -, -, w, heff, hwit⟩
  · refine Or.inl ⟨hne, hsame, ?_⟩
    by_contra hcon
    obtain ⟨hout, hr⟩ := not_or.mp hcon
    rw [not_not] at hr
    have hin := ((hdecide hout hr).members tx).mpr ⟨hr.1, by simp⟩
    rw [hsame] at hin
    exact hout hin
  · have hout : tx ∉ pool.snapshot := by
      intro hmem
      rw [contains_iff.mpr ⟨tx, hmem, rfl⟩] at hnew
      cases hnew
    obtain ⟨ordered, w', hperm, hw, heff'⟩ := buildEffectiveUtxo_ok (hx.placeable hrev)
    rw [heff', Except.ok.injEq, Option.some.injEq] at heff
    subst heff
    have hr := h.ready_of_available hx htx fun k hk =>
      (hx.available hrev htx hout hperm hw hk).mp ((authorized_of_validate hwit).present k hk)
    exact Or.inr ⟨hnone, hsnap, hr, (hdecide hout hr).settles⟩

theorem Settles.ordered (hx : Reorganised txs all chain u t) (h : Settles all chain u pool) :
    ∃ ordered w, pool.orderedTransactions u = .ok ordered ∧ ordered.Perm pool.snapshot ∧
      applyTransactions K ordered u = .ok (some w) := by
  obtain ⟨pending, hrev, -⟩ := h.reviving
  obtain ⟨ordered, w, ho, hperm, hw⟩ := orderedTransactions_ok (hx.placeable hrev)
  refine ⟨ordered, w, ho, hperm, applyTransactions_vetted hx.collisionFree (hx.replay.genuine hx.onChain) ?_ hw⟩
  intro tx htx
  exact hx.vetted tx (hrev.sub (hperm.subset htx))

/-! ## Frames -/

theorem length_le_flatMap {α : Type} {f : α → Bytes} {l : List α} (h : ∀ a ∈ l, 0 < (f a).length) :
    l.length ≤ (l.flatMap f).length := by
  rw [List.length_flatMap]
  refine (List.length_map (fun a => (f a).length) ▸ List.length_le_sum_of_one_le _ fun n hn => ?_)
  obtain ⟨a, ha, rfl⟩ := List.mem_map.mp hn
  exact h a ha

theorem fits_decodeLimit (hf : tx.Fits uint32Max) (hsize : tx.fullBytes.length ≤ maxTransactionBytes) :
    tx.Fits decodeLimit := by
  have hlimit : maxTransactionBytes = decodeLimit := rfl
  rw [hlimit] at hsize
  simp only [Transaction.fullBytes, Transaction.bytes, List.length_append] at hsize
  have hinputs := length_le_flatMap (f := TransactionInput.serializeBinary) (l := tx.inputs) fun input _ => by
    simp [TransactionInput.serializeBinary, writeU32, leBytes]
  have houtputs := length_le_flatMap (f := TransactionOutput.bytes) (l := tx.outputs) fun output _ => by
    simp [TransactionOutput.bytes, writeU64, leBytes]
  have hwitness := length_le_flatMap (f := TransactionWitness.bytes) (l := tx.witness) fun item _ => by
    simp [TransactionWitness.bytes, stringBytes, writeSize]
  refine ⟨⟨hf.coinbaseData, by omega, by omega, hf.recipients⟩, by omega, hf.publicKeys, fun item hitem => ?_⟩
  have hsignature : item.signature.length ≤ (tx.witness.flatMap TransactionWitness.bytes).length := by
    have hsub := List.sublist_flatten_of_mem (List.mem_map_of_mem (f := TransactionWitness.bytes) hitem)
    refine le_trans ?_ hsub.length_le
    simp only [TransactionWitness.bytes, stringBytes, List.length_append]
    omega
  omega

theorem deserializeFull_frame (hall : all.Consistent) (htx : tx ∈ all.snapshot) :
    Transaction.deserializeFull (transactionFrame tx).payload = .ok tx :=
  deserializeFull_ok.mpr ⟨fits_decodeLimit (snapshot_fits htx) (hall.each tx htx), rfl⟩

/-! ## What every step keeps -/

variable {N : Type} [DecidableEq N]

namespace Mesh

def carriedTransaction (frame : P2PFrame) : Option Transaction :=
  match frame.type with
  | .transaction => (Transaction.deserializeFull frame.payload).toOption
  | _ => none

def pooled (mesh : Mesh K N) : Flood.State N Transaction :=
  ⟨fun n => {tx | tx ∈ (mesh.node n).mempool.snapshot}, mesh.wires.items carriedTransaction⟩

theorem carriedTransaction_frame (hall : all.Consistent) (htx : tx ∈ all.snapshot) :
    carriedTransaction (transactionFrame tx) = some tx := by
  rw [carriedTransaction]
  show (Transaction.deserializeFull (transactionFrame tx).payload).toOption = some tx
  rw [deserializeFull_frame hall htx]
  rfl

end Mesh

/-- All nodes have the chain, their pools are on their way to the same set, and only transactions are on their way, in
causal order. -/
structure Mesh.Spreads (all : Mempool K) (chain : List Block) (u : UTXOSet) (peers : N → List N)
    (base : N → List Transaction) (mesh : Mesh K N) : Prop where
  peers_eq : mesh.peers = peers
  running : ∀ n, (mesh.node n).running = true
  storage : ∀ n, (mesh.node n).storage = some chain
  settles : ∀ n, Settles all chain u (mesh.node n).mempool
  kept : ∀ n, base n ⊆ (mesh.node n).mempool.snapshot
  linked : ∀ {x y frame}, frame ∈ mesh.wires x y → y ∈ peers x
  frames : ∀ {x y frame}, frame ∈ mesh.wires x y → ∃ tx ∈ all.snapshot, frame = transactionFrame tx
  causal : Causal peers (lineage all u) mesh.pooled

namespace Mesh

section
variable {peers : N → List N} {base : N → List Transaction} {mesh : Mesh K N}

theorem acceptTransaction_pool (mesh : Mesh K N) (hx : Reorganised txs all chain u t) (hload : Loadable K chain) {n : N}
    (hrun : (mesh.node n).running = true) (hstorage : (mesh.node n).storage = some chain)
    (h : Settles all chain u (mesh.node n).mempool) (htx : tx ∈ all.snapshot) :
    mesh.acceptTransaction n tx = mesh ∧ (tx ∈ mesh.pooled.known n ∨ ¬ (lineage all u).ready (mesh.pooled.known n) tx) ∨
      (lineage all u).ready (mesh.pooled.known n) tx ∧ ∃ after, Settles all chain u after ∧
        after.snapshot = tx :: (mesh.node n).mempool.snapshot ∧ mesh.acceptTransaction n tx =
          { mesh.setNode n { mesh.node n with mempool := after } with
            wires := mesh.wires.send n (mesh.peers n) (transactionFrame tx) } := by
  obtain ⟨reason, after, hacc, hcase⟩ := h.accept hx htx
  have hne : chain.isEmpty = false := by
    rw [Bool.eq_false_iff, ne_eq, List.isEmpty_iff]
    exact hx.replay.ne_nil
  have hnode : (mesh.node n).acceptTransaction tx = (.ok reason, { mesh.node n with mempool := after }) := by
    refine commit_ok.mpr (ite_not_fail.mpr ⟨hrun, bind_ok.mpr ⟨chain, load_ok.mpr ⟨hstorage, hload⟩, ?_⟩⟩)
    refine ite_error_ok.mpr ⟨by simp [hne], bind_ok.mpr ⟨u, rebuildUtxoSet_ok.mpr ⟨t, hx.replay⟩, ?_⟩⟩
    rw [(hx.vetted tx htx).plain]
    exact bind_ok.mpr ⟨(reason, after), hacc, rfl⟩
  rcases hcase with ⟨hreason, rfl, hwhy⟩ | ⟨rfl, hsnap, hr, hafter⟩
  · refine Or.inl ⟨?_, hwhy⟩
    unfold Mesh.acceptTransaction
    rw [hnode]
    dsimp only
    split
    · rename_i heq
      cases heq
      exact absurd rfl hreason
    · exact setNode_self mesh n
  · refine Or.inr ⟨hr, after, hafter, hsnap, ?_⟩
    have hsize := hx.consistent.each tx htx
    have hmax : maxTransactionBytes ≤ czrP2PMaxPayload := by decide
    have hfits : (transactionFrame tx).payload.length ≤ czrP2PMaxPayload := le_trans hsize hmax
    unfold Mesh.acceptTransaction
    rw [hnode]
    dsimp only
    rw [makeTransactionFrame_ok (snapshot_fits htx) hsize, announce, broadcast_eq hfits]
    rfl

theorem pooled_take (hall : all.Consistent) (htx : tx ∈ all.snapshot) (mesh : Mesh K N) {n : N} {after : Mempool K}
    (hsnap : after.snapshot = tx :: (mesh.node n).mempool.snapshot) (targets : List N) :
    pooled { mesh.setNode n { mesh.node n with mempool := after } with
      wires := mesh.wires.send n targets (transactionFrame tx) } = mesh.pooled.take n tx targets := by
  simp only [pooled, Flood.State.take, Wires.items_send_some (carriedTransaction_frame hall htx)]
  congr 1
  funext m
  by_cases hm : m = n
  · subst hm
    ext p
    simp [setNode, hsnap]
  · simp [setNode, hm]

theorem Spreads.take (hx : Reorganised txs all chain u t) (h : mesh.Spreads all chain u peers base) {before : Mesh K N}
    {n : N} {after : Mempool K} (hpeers : before.peers = mesh.peers) (hnodes : before.node = mesh.node)
    (hsub : ∀ {x y frame}, frame ∈ before.wires x y → frame ∈ mesh.wires x y) (htx : tx ∈ all.snapshot)
    (hafter : Settles all chain u after) (hsnap : after.snapshot = tx :: (mesh.node n).mempool.snapshot)
    (hstep : Flood.Step peers (lineage all u) mesh.pooled (before.pooled.take n tx (peers n))) :
    Spreads all chain u peers base { before.setNode n { before.node n with mempool := after } with
      wires := before.wires.send n (before.peers n) (transactionFrame tx) } := by
  have htargets : before.peers n = peers n := by rw [hpeers, h.peers_eq]
  have hpooled := pooled_take hx.consistent htx before (hnodes ▸ hsnap) (peers n)
  rw [htargets]
  refine ⟨hpeers.trans h.peers_eq, fun m => ?_, fun m => ?_, fun m => ?_, fun m => ?_, fun {x y frame} hf => ?_,
    fun {x y frame} hf => ?_, hpooled ▸ hstep.causal h.causal⟩
  · by_cases hm : m = n
    · subst hm
      simpa [setNode, hnodes] using h.running m
    · simpa [setNode, hm, hnodes] using h.running m
  · by_cases hm : m = n
    · subst hm
      simpa [setNode, hnodes] using h.storage m
    · simpa [setNode, hm, hnodes] using h.storage m
  · by_cases hm : m = n
    · subst hm
      simpa [setNode] using hafter
    · simpa [setNode, hm, hnodes] using h.settles m
  · by_cases hm : m = n
    · subst hm
      simpa [setNode, hsnap] using List.subset_cons_of_subset tx (h.kept m)
    · simpa [setNode, hm, hnodes] using h.kept m
  · rcases Wires.mem_send.mp hf with hf | ⟨rfl, hy, -⟩
    · exact h.linked (hsub hf)
    · exact hy
  · rcases Wires.mem_send.mp hf with hf | ⟨-, -, rfl⟩
    · exact h.frames (hsub hf)
    · exact ⟨tx, htx, rfl⟩

theorem Spreads.acceptTransaction (hx : Reorganised txs all chain u t) (hload : Loadable K chain)
    (h : mesh.Spreads all chain u peers base) (n : N) (htx : tx ∈ all.snapshot) :
    (mesh.acceptTransaction n tx).Spreads all chain u peers base := by
  rcases acceptTransaction_pool mesh hx hload (h.running n) (h.storage n) (h.settles n) htx with
    ⟨hsame, -⟩ | ⟨hr, after, hafter, hsnap, heq⟩
  · rw [hsame]
    exact h
  · rw [heq]
    exact h.take hx rfl rfl id htx hafter hsnap (.create hr)

theorem Spreads.read_cases (h : mesh.Spreads all chain u peers base) (hall : all.Consistent)
    (hsymm : ∀ x y, y ∈ peers x → x ∈ peers y) (choice : Node.Choice K) {src dst : N} {frame : P2PFrame}
    {rest : List P2PFrame} (hw : mesh.wires src dst = frame :: rest) : ∃ tx ∈ all.snapshot, frame = transactionFrame tx ∧
      mesh.read choice src dst =
        ({ mesh with wires := mesh.wires.receive src dst } : Mesh K N).handleTransaction dst frame.payload ∧
      mesh.read choice src dst =
        ({ mesh with wires := mesh.wires.receive src dst } : Mesh K N).acceptTransaction dst tx := by
  have hmem : frame ∈ mesh.wires src dst := by rw [hw]; exact List.mem_cons_self
  have hpeer : src ∈ mesh.peers dst := h.peers_eq ▸ hsymm src dst (h.linked hmem)
  obtain ⟨tx, htx, rfl⟩ := h.frames hmem
  have hread : mesh.read choice src dst = ({ mesh with wires := mesh.wires.receive src dst } : Mesh K N).handleTransaction
      dst (transactionFrame tx).payload := read_of_ok hpeer hw rfl
  refine ⟨tx, htx, rfl, hread, ?_⟩
  have hsize := hall.each tx htx
  have hmax : maxTransactionBytes ≤ czrP2PMaxPayload := by decide
  rw [hread, handleTransaction, if_neg, deserializeFull_frame hall htx]
  simp only [transactionFrame, Bool.or_eq_true, List.isEmpty_iff, not_or]
  refine ⟨fullBytes_ne_nil tx, fun hlarge => ?_⟩
  have := of_decide_eq_true hlarge
  omega

theorem Spreads.read (hx : Reorganised txs all chain u t) (hload : Loadable K chain)
    (h : mesh.Spreads all chain u peers base) (hsymm : ∀ x y, y ∈ peers x → x ∈ peers y) (choice : Node.Choice K)
    (src dst : N) : (mesh.read choice src dst).Spreads all chain u peers base := by
  cases hw : mesh.wires src dst with
  | nil =>
    have hsame : mesh.read choice src dst = mesh := by
      unfold Mesh.read
      rw [hw]
      split <;> rfl
    rw [hsame]
    exact h
  | cons frame rest =>
    obtain ⟨tx, htx, rfl, -, heq⟩ := h.read_cases hx.consistent hsymm choice hw
    have hcarried := carriedTransaction_frame hx.consistent htx
    have hwire : mesh.pooled.wires src dst = tx :: rest.filterMap carriedTransaction := by
      simp [pooled, Wires.items, hw, hcarried]
    have hpooled : pooled { mesh with wires := mesh.wires.receive src dst } = mesh.pooled.receive src dst := by
      simp only [pooled, Flood.State.receive, Wires.items_receive_some hw hcarried]
    rw [heq]
    rcases acceptTransaction_pool { mesh with wires := mesh.wires.receive src dst } hx hload (h.running dst)
      (h.storage dst) (h.settles dst) htx with ⟨hsame, hwhy⟩ | ⟨hr, after, hafter, hsnap, htaken⟩
    · rw [hsame]
      have hstep : Flood.Step peers (lineage all u) mesh.pooled (mesh.pooled.receive src dst) := .drop hwire hwhy
      exact ⟨h.peers_eq, h.running, h.storage, h.settles, h.kept, fun hm => h.linked (Wires.mem_of_receive hm),
        fun hm => h.frames (Wires.mem_of_receive hm), hpooled ▸ hstep.causal h.causal⟩
    · rw [htaken]
      have hstep : Flood.Step peers (lineage all u) mesh.pooled ((mesh.pooled.receive src dst).take dst tx (peers dst)) :=
        .pass hwire hr (List.Subset.refl _) fun m hm => Or.inr hm
      rw [← hpooled] at hstep
      exact h.take hx rfl rfl Wires.mem_of_receive htx hafter hsnap hstep

/-! ## Whole runs -/

/-- The calls of a run in which the nodes are given transactions of one pool. -/
def Event.Submits (all : Mempool K) : Event K N → Prop
  | .acceptTransaction _ tx => tx ∈ all.snapshot
  | .read _ _ _ => True
  | _ => False

theorem Spreads.step (hx : Reorganised txs all chain u t) (hload : Loadable K chain)
    (h : mesh.Spreads all chain u peers base) (hsymm : ∀ x y, y ∈ peers x → x ∈ peers y) {event : Event K N}
    (he : event.Submits all) : (mesh.step event).Spreads all chain u peers base := by
  cases event with
  | acceptTransaction n tx => exact h.acceptTransaction hx hload n he
  | commitMined n candidate => exact he.elim
  | submitPoolSolution n candidate => exact he.elim
  | requestHeaders n peer => exact he.elim
  | read choice src dst => exact h.read hx hload hsymm choice src dst
  | lost src dst => exact he.elim

theorem Spreads.run (hx : Reorganised txs all chain u t) (hload : Loadable K chain)
    (hsymm : ∀ x y, y ∈ peers x → x ∈ peers y) : ∀ {events : List (Event K N)} {mesh : Mesh K N},
      mesh.Spreads all chain u peers base → (∀ event ∈ events, event.Submits all) →
      (mesh.run events).Spreads all chain u peers base
  | [], _, h, _ => h
  | event :: events, mesh, h, he => by
    rw [List.forall_mem_cons] at he
    show ((mesh.step event).run events).Spreads all chain u peers base
    exact Spreads.run hx hload hsymm (h.step hx hload hsymm he.1) he.2

omit [DecidableEq N] in
theorem Spreads.start (hquiet : mesh.wires.Quiet) (hstart : ∀ n, (mesh.node n).running = true ∧
    (mesh.node n).storage = some chain ∧ (mesh.node n).mempool = Mempool.empty K) :
    mesh.Spreads all chain u mesh.peers fun _ => [] := by
  have hwires : ∀ x y, mesh.wires x y = [] := hquiet
  refine ⟨rfl, fun n => (hstart n).1, fun n => (hstart n).2.1, fun n => ?_, fun n => List.nil_subset _,
    fun {x y frame} hf => ?_, fun {x y frame} hf => ?_, .of_quiet (fun x y => ?_) fun x y => ?_⟩
  · rw [(hstart n).2.2]
    exact settles_empty
  · rw [hwires] at hf
    cases hf
  · rw [hwires] at hf
    cases hf
  · simp [pooled, Wires.items, hwires]
  · simp only [pooled, (hstart _).2.2]

omit [DecidableEq N] in
theorem Spreads.agree (h : mesh.Spreads all chain u peers base) (hquiet : mesh.wires.Quiet) {x y : N}
    (hp : Relation.ReflTransGen (fun x y => y ∈ peers x) x y) :
    (mesh.node x).mempool.snapshot ⊆ (mesh.node y).mempool.snapshot := by
  have hwires : ∀ x y, mesh.wires x y = [] := hquiet
  have hitems : mesh.pooled.wires.Quiet := by
    intro x y
    simp [pooled, Wires.items, hwires]
  exact h.causal.subset_of_path hitems hp

theorem Spreads.taken (hx : Reorganised txs all chain u t) (hload : Loadable K chain)
    (h : mesh.Spreads all chain u peers base) (n : N) (htx : tx ∈ all.snapshot)
    (hin : ∀ k ∈ tx.points, k ∈ u ∨ ∃ p ∈ (mesh.node n).mempool.snapshot, k ∈ (p.entry K).keys) :
    tx ∈ ((mesh.acceptTransaction n tx).node n).mempool.snapshot := by
  rcases acceptTransaction_pool mesh hx hload (h.running n) (h.storage n) (h.settles n) htx with
    ⟨hsame, hwhy⟩ | ⟨-, after, -, hsnap, heq⟩
  · rw [hsame]
    exact hwhy.resolve_right (not_not.mpr ((h.settles n).ready_of_available hx htx hin))
  · rw [heq]
    simp [setNode, hsnap]

section
variable [Fintype N]

end

end

end Mesh

end

/-! ## A parent and its child -/

end Caesar
