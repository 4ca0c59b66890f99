import Caesar.Announce
import Caesar.CoherenceSound
import Caesar.WireSound

/-!
# What an exception of a peer hides

The calls change the node before they announce, so one that ends with the
exception of a peer has changed it. Without such a peer a call that fails has
changed nothing.
-/

namespace Caesar

open Codec

section
variable {K : Crypto}

/-! ## The loop over the peers -/

theorem broadcast_ok {frame : P2PFrame} : ∀ {connections : List Connection},
    broadcast connections frame = .ok () ↔ ∀ connection ∈ connections, connection.sendFrame frame = .ok () := by
  intro connections
  induction connections with
  | nil => simp [broadcast]
  | cons connection rest ih =>
    rw [broadcast, bind_ok, List.forall_mem_cons, ← ih]
    constructor
    · rintro ⟨⟨⟩, hfirst, hrest⟩
      exact ⟨hfirst, hrest⟩
    · rintro ⟨hfirst, hrest⟩
      exact ⟨(), hfirst, hrest⟩

def transactionFrame (tx : Transaction) : P2PFrame := ⟨.transaction, tx.fullBytes⟩

def blockFrame (block : Block) : P2PFrame := ⟨.blocks, writeSize 1 ++ writeSized block.bytes⟩

theorem makeBlocksFrame_ok {block : Block} (hf : block.Fits uint32Max) (hb : block.bytes.length ≤ uint32Max) :
    makeBlocksFrame block = .ok (blockFrame block) := by
  unfold makeBlocksFrame
  rw [blockSerialize_ok.mpr ⟨hf, rfl⟩]
  show (if block.bytes.length > uint32Max then _ else _) = _
  rw [if_neg (by omega)]
  rfl

theorem fullBytes_ne_nil (tx : Transaction) : tx.fullBytes ≠ [] := by
  simp [Transaction.fullBytes, Transaction.bytes, writeU32, leBytes]

theorem makeTransactionFrame_ok {tx : Transaction} (hf : tx.Fits uint32Max)
    (hb : tx.fullBytes.length ≤ maxTransactionBytes) : Node.makeTransactionFrame tx = .ok (transactionFrame tx) := by
  have hmax : maxTransactionBytes ≤ czrP2PMaxPayload := by decide
  unfold Node.makeTransactionFrame
  rw [serializeFullBinary_ok.mpr ⟨hf, rfl⟩]
  show (if tx.fullBytes.isEmpty || decide (tx.fullBytes.length > czrP2PMaxPayload) then _ else _) = _
  rw [if_neg]
  · rfl
  · simp only [Bool.or_eq_true, List.isEmpty_iff, decide_eq_true_eq, not_or]
    exact ⟨fullBytes_ne_nil tx, by omega⟩

/-! ## The calls -/

theorem announcing_node {α : Type} (committed : α → Bool) (announce : Result Unit) (call : Result α × Node K) :
    (Node.announcing committed announce call).2 = call.2 := by
  unfold Node.announcing
  cases call.1 with
  | error e => rfl
  | ok a =>
    by_cases hc : committed a = true
    · simp [hc]
    · simp [hc]

theorem announcing_ok {α : Type} {committed : α → Bool} {announce : Result Unit} {call : Result α × Node K} {a : α}
    (hc : committed a = true) :
    (Node.announcing committed announce call).1 = .ok a ↔ call.1 = .ok a ∧ announce = .ok () := by
  unfold Node.announcing
  cases h : call.1 with
  | error e => simp [h]
  | ok b =>
    by_cases hb : committed b = true
    · simp only [hb, if_true]
      cases announce with
      | error e => simp [Except.map]
      | ok u => simp [Except.map]
    · -- a call that returned without committing did not return `a`
      have hne : b ≠ a := fun he => hb (he ▸ hc)
      simp [hb, h, hne]

/-- A call that has changed something exactly when it committed hides it exactly when its announcement throws. -/
theorem announcing_unchanged {α : Type} {committed : α → Bool} {announce : Result Unit} {call : Result α × Node K} {a : α}
    (hc : committed a = true) {P : Node K → Prop} (hcall : P call.2 ↔ call.1 ≠ .ok a) :
    ((Node.announcing committed announce call).1 ≠ .ok a → P (Node.announcing committed announce call).2) ↔
      (call.1 = .ok a → announce = .ok ()) := by
  rw [announcing_node, Ne, announcing_ok hc, hcall]
  constructor
  · intro h hok
    by_contra hthrow
    exact h (fun hx => hthrow hx.2) hok
  · intro h hfail hok
    exact hfail ⟨hok, h hok⟩

/-! ## Transactions -/

theorem acceptTransaction_throws {node : Node K} {tx : Transaction} {e : Error}
    (h : (node.acceptTransaction tx).1 = .error e) : (node.acceptTransaction tx).2 = node :=
  commit_throws h

theorem acceptTransaction_unchanged (node : Node K) (tx : Transaction) :
    (node.acceptTransaction tx).2.mempool = node.mempool ↔ (node.acceptTransaction tx).1 ≠ .ok .none := by
  cases h : (node.acceptTransaction tx).1 with
  | error e => simp [acceptTransaction_throws h]
  | ok reason =>
    have hpair : node.acceptTransaction tx = (.ok reason, (node.acceptTransaction tx).2) := Prod.ext h rfl
    obtain ⟨chain, u, t, -, -, ⟨rfl, he⟩ | ⟨-, pool, hacc, he⟩⟩ := acceptTransaction_ok hpair
    · simp [he]
    · rw [he]
      rcases accept_ok hacc with ⟨hr, rfl⟩ | ⟨rfl, hsnap, -⟩
      · simp [hr]
      · have hne : pool ≠ node.mempool := by
          rintro rfl
          simpa using congrArg List.length hsnap
        simp [hne]

theorem announceTransaction_ok {node : Node K} {tx : Transaction} (connections : List Connection)
    (h : (node.acceptTransaction tx).1 = .ok .none) : announceTransaction connections tx = .ok () ↔
      ∀ connection ∈ connections, connection.sendFrame (transactionFrame tx) = .ok () := by
  obtain ⟨chain, u, t, -, -, ⟨hr, -⟩ | ⟨-, pool, hacc, -⟩⟩ := acceptTransaction_ok (Prod.ext h rfl)
  · cases hr
  · rcases accept_ok hacc with ⟨hr, -⟩ | ⟨-, -, -, -, hfits, -⟩
    · exact absurd rfl hr
    · rw [announceTransaction, makeTransactionFrame_ok hfits (accept_limits hacc).1]
      exact broadcast_ok

/-! ## Blocks -/

theorem submitPoolSolution_throws {node : Node K} {candidate : Block} {e : Error}
    (h : (node.submitPoolSolution candidate).1 = .error e) : (node.submitPoolSolution candidate).2 = node :=
  commit_throws h

theorem mines_changed {node after : Node K} {candidate : Block} (h : Mines node candidate after) :
    ¬(after.storage = node.storage ∧ after.mempool = node.mempool) := by
  obtain ⟨chain, u, t, u', t', hload, -, -, he⟩ := h
  simp [he, (load_ok.mp hload).1]

theorem submitPoolSolution_unchanged (node : Node K) (candidate : Block) :
    ((node.submitPoolSolution candidate).2.storage = node.storage ∧
      (node.submitPoolSolution candidate).2.mempool = node.mempool) ↔
      (node.submitPoolSolution candidate).1 ≠ .ok true := by
  cases h : (node.submitPoolSolution candidate).1 with
  | error e => simp [submitPoolSolution_throws h]
  | ok accepted =>
    have hpair : node.submitPoolSolution candidate = (.ok accepted, (node.submitPoolSolution candidate).2) :=
      Prod.ext h rfl
    rcases submitPoolSolution_ok hpair with ⟨rfl, he⟩ | ⟨rfl, hm⟩
    · simp [he]
    · exact iff_of_false (mines_changed hm) (fun hne => hne rfl)

theorem commitMined_unchanged (node : Node K) (candidate : Block) :
    ((node.commitMined candidate).2.storage = node.storage ∧ (node.commitMined candidate).2.mempool = node.mempool) ↔
      (node.commitMined candidate).1 ≠ .ok () := by
  cases h : (node.commitMined candidate).1 with
  | error e =>
    have hstay : (node.commitMined candidate).2 = node := commit_throws h
    simp [hstay]
  | ok u => exact iff_of_false (mines_changed (commitMined_ok (Prod.ext h rfl))) (fun hne => hne rfl)

/-- What the storage took can be sent, so only a peer can make the announcement throw. -/
theorem announceBlock_ok {node after : Node K} {candidate : Block} {chain : List Block} (connections : List Connection)
    (hload : node.storage.load K = .ok chain) (hn : node.appendBlock candidate = .ok after) :
    announceBlock connections candidate = .ok () ↔
      ∀ connection ∈ connections, connection.sendFrame (blockFrame candidate) = .ok () := by
  obtain ⟨hfits, hsize⟩ := appendBlock_stored hload hn
  have hmax : maxBlockBytes ≤ uint32Max := by decide
  rw [announceBlock, makeBlocksFrame_ok hfits (hsize.trans hmax)]
  exact broadcast_ok

theorem announceSubmitted_ok {node : Node K} {candidate : Block} (connections : List Connection)
    (h : (node.submitPoolSolution candidate).1 = .ok true) : announceBlock connections candidate = .ok () ↔
      ∀ connection ∈ connections, connection.sendFrame (blockFrame candidate) = .ok () := by
  rcases submitPoolSolution_cases (Prod.ext h rfl) with ⟨hf, -⟩ | ⟨-, chain, u, hload, -, -, hn⟩
  · cases hf
  · exact announceBlock_ok connections hload hn

/-- `mine_one_block` announces under no lock as well: it throws with its block stored when a peer fails. -/
theorem mined_unchanged_iff (node : Node K) (connections : List Connection) (candidate : Block) :
    ((node.commitAndAnnounce connections candidate).1 ≠ .ok () →
        (node.commitAndAnnounce connections candidate).2.storage = node.storage ∧
          (node.commitAndAnnounce connections candidate).2.mempool = node.mempool) ↔
      ((node.commitMined candidate).1 = .ok () →
        ∀ connection ∈ connections, connection.sendFrame (blockFrame candidate) = .ok ()) := by
  rw [Node.commitAndAnnounce,
    announcing_unchanged (P := fun after => after.storage = node.storage ∧ after.mempool = node.mempool) rfl
      (commitMined_unchanged node candidate)]
  refine forall_congr' fun h => ?_
  obtain ⟨chain, u, hload, -, -, hn⟩ := commitMined_cases (Prod.ext h rfl)
  exact announceBlock_ok connections hload hn

/-- A failed call has changed nothing exactly when no peer fails to take what the call committed. -/
theorem failure_unchanged_iff (node : Node K) (connections : List Connection) (tx : Transaction) (candidate : Block) :
    (((node.acceptAndAnnounce connections tx).1 ≠ .ok .none →
        (node.acceptAndAnnounce connections tx).2.mempool = node.mempool) ↔
      ((node.acceptTransaction tx).1 = .ok .none →
        ∀ connection ∈ connections, connection.sendFrame (transactionFrame tx) = .ok ())) ∧
    (((node.submitAndAnnounce connections candidate).1 ≠ .ok true →
        (node.submitAndAnnounce connections candidate).2.storage = node.storage ∧
          (node.submitAndAnnounce connections candidate).2.mempool = node.mempool) ↔
      ((node.submitPoolSolution candidate).1 = .ok true →
        ∀ connection ∈ connections, connection.sendFrame (blockFrame candidate) = .ok ())) := by
  constructor
  · rw [Node.acceptAndAnnounce,
      announcing_unchanged (P := fun after => after.mempool = node.mempool) rfl (acceptTransaction_unchanged node tx)]
    exact forall_congr' fun h => announceTransaction_ok connections h
  · rw [Node.submitAndAnnounce,
      announcing_unchanged (P := fun after => after.storage = node.storage ∧ after.mempool = node.mempool) rfl
        (submitPoolSolution_unchanged node candidate)]
    exact forall_congr' fun h => announceSubmitted_ok connections h

end

def brokenConnection : Connection := fun _ => fail "TCP send failed"

/-- With one broken peer, a transaction and a block are accepted and both calls throw. -/
theorem broken_peer_hides_commit :
    (toyNode [toyGenesis, toyFirst]).mempool.snapshot = [] ∧
    ((toyNode [toyGenesis, toyFirst]).acceptAndAnnounce [brokenConnection] toyPooled).1 = fail "TCP send failed" ∧
    ((toyNode [toyGenesis, toyFirst]).acceptAndAnnounce [brokenConnection] toyPooled).2.mempool.snapshot = [toyPooled] ∧
    ((toyNode [toyGenesis, toyFirst]).submitAndAnnounce [brokenConnection] (toyNext toyFirst [toyCoinbase 2])).1 =
      fail "TCP send failed" ∧
    ((toyNode [toyGenesis, toyFirst]).submitAndAnnounce [brokenConnection] (toyNext toyFirst [toyCoinbase 2])).2.storage =
      some [toyGenesis, toyFirst, toyNext toyFirst [toyCoinbase 2]] := by
  decide +kernel

end Caesar
