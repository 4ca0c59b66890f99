import Caesar.ShareSound
import Caesar.CacheSound

/-!
# Which tip a served job extends

A job is served when its height is one more than a height that was read from the
node. The chain it was built on, and the chain that the height was read from, are
both chains that were stored in the run. So the job extends the tip it was
compared with as long as no two of them have the same height and different tips.
-/

namespace Caesar

open Codec Text

/-- The block was built on the last block of the chain. -/
def BuiltOn (K : Crypto) (chain : List Block) (block : Block) : Prop :=
  ∃ previous, chain.getLast? = some previous ∧ block.header.previousHash = previous.hash K ∧
    block.header.height = previous.header.height + 1

section
variable {K : Crypto}

theorem updateMerkleRoot_header {block updated : Block} (h : block.updateMerkleRoot K = .ok updated) :
    updated.header.previousHash = block.header.previousHash ∧ updated.header.height = block.header.height ∧
      updated.header.difficulty = block.header.difficulty := by
  obtain ⟨root, witness, -, -, rfl⟩ := updateMerkleRoot_ok h
  exact ⟨rfl, rfl, rfl⟩

theorem assembleCandidate_header {chain : List Block} {recipient : Bytes} {now : UInt64} {mempool : Mempool K}
    {candidate : Block} (h : Node.assembleCandidate chain recipient now mempool = .ok candidate) :
    BuiltOn K chain candidate ∧ candidate.header.difficulty = expectedNextDifficulty chain := by
  rw [Node.assembleCandidate] at h
  cases hlast : chain.getLast? with
  | none =>
    rw [hlast] at h
    cases h
  | some previous =>
    rw [hlast] at h
    obtain ⟨utxos, -, h⟩ := bind_ok.mp h
    obtain ⟨-, h⟩ := ite_error_ok.mp h
    obtain ⟨coinbase, -, h⟩ := bind_ok.mp h
    obtain ⟨ordered, -, h⟩ := bind_ok.mp h
    obtain ⟨hprevious, hheight, hdifficulty⟩ := updateMerkleRoot_header h
    exact ⟨⟨previous, hlast, hprevious, hheight⟩, hdifficulty⟩

end

/-! ## What the node reads -/

namespace CachedNode

variable {K : Crypto} {c : CachedNode K} {chains : List (List Block)}

/-- The stored chain, a valid copy and the snapshot are among the chains. -/
structure Grounded (c : CachedNode K) (chains : List (List Block)) : Prop where
  stored : ∀ chain, c.node.storage = some chain → chain ∈ chains
  cached : c.chainCacheValid = true → c.chainCache ∈ chains
  snapshot : c.snapshotChain ∈ chains
  height : c.heightSnapshot = tipHeight c.snapshotChain

theorem Grounded.mono {more : List (List Block)} (h : c.Grounded chains) (hsub : chains ⊆ more) : c.Grounded more :=
  ⟨fun chain hs => hsub (h.stored chain hs), fun hv => hsub (h.cached hv), hsub h.snapshot, h.height⟩

theorem Grounded.refresh {fresh : CachedNode K} (h : c.Grounded chains) (hf : c.refresh = .ok fresh) :
    fresh.Grounded chains ∧ fresh.chainCache ∈ chains := by
  rcases refresh_ok hf with ⟨rfl, hv⟩ | ⟨chain, hload, rfl⟩
  · exact ⟨h, h.cached hv⟩
  · have hmem : chain ∈ chains := h.stored chain (load_ok.mp hload).1
    exact ⟨⟨h.stored, fun _ => hmem, h.snapshot, h.height⟩, hmem⟩

theorem Grounded.readHeight (h : c.Grounded chains) (owned : Bool) :
    (c.height owned).2.Grounded chains ∧
      ∀ r, (c.height owned).1 = .ok r → r.2 ∈ chains ∧ r.1 = tipHeight r.2 := by
  rw [CachedNode.height]
  split
  · refine ⟨h, fun r hr => ?_⟩
    rw [← Except.ok.inj hr]
    exact ⟨h.snapshot, h.height⟩
  · cases hf : c.refresh with
    | error e =>
      refine ⟨h, fun r hr => ?_⟩
      cases hr
    | ok fresh =>
      obtain ⟨hfresh, hmem⟩ := h.refresh hf
      refine ⟨⟨hfresh.stored, hfresh.cached, hmem, rfl⟩, fun r hr => ?_⟩
      rw [← Except.ok.inj hr]
      exact ⟨hmem, rfl⟩

theorem Grounded.call (h : c.Grounded chains) (call : Call K) :
    (c.call call).Grounded ((c.call call).node.storage.toList ++ chains) := by
  have hnode : (c.call call).node = c.node.call call := by
    unfold CachedNode.call
    split
    · cases call <;> rfl
    · rfl
  have hrest : ((c.call call).chainCacheValid = true → c.chainCacheValid = true) ∧
      (c.call call).chainCache = c.chainCache ∧ (c.call call).snapshotChain = c.snapshotChain ∧
      (c.call call).heightSnapshot = c.heightSnapshot := by
    unfold CachedNode.call
    split
    · cases call with
      | handleBlocks payload => exact ⟨id, rfl, rfl, rfl⟩
      | acceptTransaction tx => exact ⟨fun hv => absurd hv Bool.false_ne_true, rfl, rfl, rfl⟩
      | commitMined candidate => exact ⟨fun hv => absurd hv Bool.false_ne_true, rfl, rfl, rfl⟩
      | submitPoolSolution candidate => exact ⟨fun hv => absurd hv Bool.false_ne_true, rfl, rfl, rfl⟩
      | replaceChain walk candidate => exact ⟨fun hv => absurd hv Bool.false_ne_true, rfl, rfl, rfl⟩
    · exact ⟨id, rfl, rfl, rfl⟩
  obtain ⟨hvalid, hcache, hsnapshot, hheight⟩ := hrest
  constructor
  · intro chain hs
    rw [hs]
    exact List.mem_cons_self
  · intro hv
    rw [hcache]
    exact List.mem_append_right _ (h.cached (hvalid hv))
  · rw [hsnapshot]
    exact List.mem_append_right _ h.snapshot
  · rw [hheight, hsnapshot]
    exact h.height

theorem Grounded.step (h : c.Grounded chains) (event : Event K) :
    (c.step event).Grounded ((c.step event).node.storage.toList ++ chains) := by
  have hsub : ∀ more : List (List Block), chains ⊆ more ++ chains := fun more => List.subset_append_right more chains
  cases event with
  | chain =>
    rw [CachedNode.step, CachedNode.chain]
    cases hf : c.refresh with
    | error e => exact h.mono (hsub _)
    | ok fresh => exact (h.refresh hf).1.mono (hsub _)
  | height owned => exact (h.readHeight owned).1.mono (hsub _)
  | requestSyncFromPeer =>
    rw [CachedNode.step, CachedNode.requestSyncFromPeer]
    cases hf : c.refresh with
    | error e => exact h.mono (hsub _)
    | ok fresh => exact (h.refresh hf).1.mono (hsub _)
  | call call => exact h.call call
  | invalidate =>
    have hafter : c.invalidate.Grounded chains := ⟨h.stored, fun hv => absurd hv Bool.false_ne_true, h.snapshot, h.height⟩
    exact hafter.mono (hsub _)

end CachedNode

/-! ## The invariant -/

namespace PoolWorld

section
variable (K : Crypto) (chains : List (List Block))

def Built (block : Block) : Prop := ∃ chain ∈ chains, BuiltOn K chain block

def Reads (read : Reading) : Prop := read.chain ∈ chains ∧ read.height = tipHeight read.chain

/-- A served job was built on one of the chains, at the height after the one it was compared with. -/
def ReplySourced : PoolReply → Prop
  | .job job read => Built K chains job.candidate ∧ Reads chains read ∧ job.candidate.header.height = read.height + 1
  | _ => True

def PhaseSourced : JobPhase → Prop
  | .compareInitial initial => Reads chains initial
  | .compareBuild _ build => Reads chains build
  | .assemble _ _ _ chain => chain ∈ chains
  | .readLatest _ _ _ candidate => Built K chains candidate
  | .publish _ _ latest _ candidate =>
    Built K chains candidate ∧ Reads chains latest ∧ candidate.header.height = latest.height + 1
  | _ => True

def ThreadSourced : PoolThread → Prop
  | .job phase => PhaseSourced K chains phase
  | .submit _ _ => True

end

section
variable {K : Crypto} {chains more : List (List Block)}

theorem Built.mono {block : Block} (hsub : chains ⊆ more) : Built K chains block → Built K more block
  | ⟨chain, hc, he⟩ => ⟨chain, hsub hc, he⟩

theorem Reads.mono {read : Reading} (hsub : chains ⊆ more) (h : Reads chains read) : Reads more read := ⟨hsub h.1, h.2⟩

theorem ReplySourced.mono {reply : PoolReply} (hsub : chains ⊆ more) (h : ReplySourced K chains reply) :
    ReplySourced K more reply := by
  cases reply with
  | job job read => exact ⟨h.1.mono hsub, h.2.1.mono hsub, h.2.2⟩
  | _ => trivial

theorem ThreadSourced.mono {t : PoolThread} (hsub : chains ⊆ more) (h : ThreadSourced K chains t) :
    ThreadSourced K more t := by
  cases t with
  | submit sub phase => trivial
  | job phase =>
    cases phase with
    | compareInitial initial => exact Reads.mono hsub h
    | compareBuild attempt build => exact Reads.mono hsub h
    | assemble attempt build recipient chain => exact hsub h
    | readLatest attempt build recipient candidate => exact Built.mono hsub h
    | publish attempt build latest recipient candidate => exact ⟨h.1.mono hsub, h.2.1.mono hsub, h.2.2⟩
    | _ => trivial

end

variable {K : Crypto} {D : Doubles} {w after : PoolWorld K D}

/-- The current job and every served one were built on chains that were stored. -/
structure Sourced (w : PoolWorld K D) : Prop where
  node : w.node.Grounded w.chains
  current : w.server.currentJob.active = true →
    Built K w.chains w.server.currentJob.candidate ∧
      w.server.currentJob.height = w.server.currentJob.candidate.header.height
  replies : ∀ reply ∈ w.replies, ReplySourced K w.chains reply

theorem Sourced.of_same (h : w.Sourced) (hnode : after.node = w.node) (hchains : after.chains = w.chains)
    (hreplies : after.replies = w.replies)
    (hjob : after.server.currentJob.active = true → after.server.currentJob = w.server.currentJob) : after.Sourced := by
  constructor
  · rw [hnode, hchains]
    exact h.node
  · intro ha
    have hcurrent := hjob ha
    rw [hcurrent] at ha
    rw [hcurrent, hchains]
    exact h.current ha
  · rw [hreplies, hchains]
    exact h.replies

theorem Sourced.withNode {node : CachedNode K} (h : w.Sourced)
    (hnode : node.Grounded (node.node.storage.toList ++ w.chains)) : (w.withNode node).Sourced := by
  have hsub : w.chains ⊆ node.node.storage.toList ++ w.chains := List.subset_append_right _ _
  exact ⟨hnode, fun ha => ⟨(h.current ha).1.mono hsub, (h.current ha).2⟩, fun reply hr => (h.replies reply hr).mono hsub⟩

theorem Sourced.readHeight (h : w.Sourced) (owned : Bool) :
    (w.readHeight owned).2.Sourced ∧ w.chains ⊆ (w.readHeight owned).2.chains ∧
      ∀ read, (w.readHeight owned).1 = .ok read → Reads (w.readHeight owned).2.chains read := by
  have hsub : w.chains ⊆ (w.readHeight owned).2.chains := List.subset_append_right _ _
  obtain ⟨hnode, hread⟩ := h.node.readHeight owned
  refine ⟨h.withNode (hnode.mono hsub), hsub, fun read (hr : (w.node.height owned).1.map _ = .ok read) => ?_⟩
  cases hres : (w.node.height owned).1 with
  | error e =>
    rw [hres] at hr
    cases hr
  | ok r =>
    rw [hres] at hr
    obtain ⟨hmem, hheight⟩ := hread r hres
    rw [← Except.ok.inj hr]
    exact ⟨hsub hmem, hheight⟩

theorem Sourced.fits {read : Reading} (h : w.Sourced) (hread : Reads w.chains read)
    (hf : w.server.fits read.height = true) : ReplySourced K w.chains (.job w.server.currentJob read) := by
  simp only [PoolServer.fits, Bool.and_eq_true, decide_eq_true_eq] at hf
  obtain ⟨hactive, hheight⟩ := hf
  obtain ⟨hbuilt, hcandidate⟩ := h.current hactive
  exact ⟨hbuilt, hread, hcandidate ▸ hheight⟩

/-! ## Sections -/

open Interleave.System (Keeps)

theorem Sourced.release (h : w.Sourced) : w.release.Sourced := ⟨h.node, h.current, h.replies⟩

def genesisPool : PoolWorld toyCrypto toyDoubles := started toyDoubles () (toyNode [toyGenesis]) [toyGenesis] none

def pacedStep (interval : UInt64) (chain : List Block) : List Block :=
  match chain.getLast? with
  | none => chain
  | some previous =>
    let block := toyBlock (previous.header.height + 1) (previous.hash toyCrypto) (expectedNextDifficulty chain)
      [toyCoinbase (previous.header.height + 1)]
    chain ++ [{ block with header := { block.header with timestamp := interval * block.header.height } }]

def paced (interval : UInt64) (n : Nat) : List Block := (pacedStep interval)^[n] [toyGenesis]

end PoolWorld

end Caesar
