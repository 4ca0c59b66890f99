import Caesar.Gossip
import Caesar.AnnounceSound
import Caesar.BatchSound
import Caesar.SyncSound

/-!
# Blocks flood the mesh

While the nodes mine one chain, block after block, no handler throws, every node
has a beginning of that chain, and once no block is on its way the nodes that are
connected have the same chain. A block never overtakes the one before it, because
whoever passes it on has passed on the one before.
-/

namespace Caesar

open Codec Flood

section
variable {K : Crypto} {N : Type} [DecidableEq N]

namespace Mesh

/-! ## Sending -/

theorem sendFrame_fits {frame : P2PFrame} (h : frame.payload.length ≤ czrP2PMaxPayload) : sendFrame frame = .ok frame := by
  unfold sendFrame
  rw [if_neg (by omega)]

theorem broadcast_eq {frame : P2PFrame} (h : frame.payload.length ≤ czrP2PMaxPayload) (n : N) :
    ∀ (targets : List N) (mesh : Mesh K N),
      mesh.broadcast n frame targets = { mesh with wires := mesh.wires.send n targets frame }
  | [], _ => rfl
  | peer :: rest, mesh => by
    rw [broadcast, sendFrame_fits h]
    exact broadcast_eq h n rest _

theorem broadcastExcept_eq {frame : P2PFrame} (h : frame.payload.length ≤ czrP2PMaxPayload) (n excluded : N) :
    ∀ (targets : List N) (mesh : Mesh K N), mesh.broadcastExcept n excluded frame targets =
      { mesh with wires := mesh.wires.send n (targets.filter fun peer => peer ≠ excluded) frame }
  | [], _ => rfl
  | peer :: rest, mesh => by
    rw [broadcastExcept, sendFrame_fits h]
    by_cases hp : peer = excluded
    · rw [if_pos hp, broadcastExcept_eq h n excluded rest mesh]
      simp [hp]
    · rw [if_neg hp]
      dsimp only
      rw [broadcastExcept_eq h n excluded rest _]
      simp [hp, put, Wires.send]

theorem announce_cases (n : N) (frame : Result P2PFrame) (mesh : Mesh K N) :
    mesh.announce n frame = mesh ∨ ∃ sent, frame = .ok sent ∧
      mesh.announce n frame = { mesh with wires := mesh.wires.send n (mesh.peers n) sent } := by
  unfold announce
  cases frame with
  | error e => exact Or.inl rfl
  | ok sent =>
    by_cases h : sent.payload.length ≤ czrP2PMaxPayload
    · exact Or.inr ⟨sent, rfl, broadcast_eq h n _ mesh⟩
    · left
      dsimp only
      cases mesh.peers n with
      | nil => rfl
      | cons peer rest =>
        rw [broadcast, sendFrame, if_pos (by omega)]
        rfl

theorem acceptTransaction_cases (n : N) (tx : Transaction) (mesh : Mesh K N) :
    ∃ node : Node K, node.storage = (mesh.node n).storage ∧
      (mesh.acceptTransaction n tx = mesh.setNode n node ∧ (mesh.node n).mempool.size ≤ node.mempool.size ∨
        ∃ sent : P2PFrame, sent.type = .transaction ∧ node.mempool.size = (mesh.node n).mempool.size + 1 ∧
          node.mempool.size ≤ maxTransactions ∧ mesh.acceptTransaction n tx =
            { mesh.setNode n node with wires := mesh.wires.send n (mesh.peers n) sent }) := by
  cases hres : (mesh.node n).acceptTransaction tx with
  | mk result after =>
    refine ⟨after, ?_⟩
    cases result with
    | error e =>
      have hsame := acceptTransaction_throws (by rw [hres])
      rw [hres] at hsame
      dsimp only at hsame
      subst hsame
      exact ⟨rfl, Or.inl ⟨by simp [acceptTransaction, hres], Nat.le_refl _⟩⟩
    | ok reason =>
      obtain ⟨chain, u, t, hload, hr, ⟨rfl, rfl⟩ | ⟨hc, pool, hacc, rfl⟩⟩ := acceptTransaction_ok hres
      · exact ⟨rfl, Or.inl ⟨by simp [acceptTransaction, hres], Nat.le_refl _⟩⟩
      · refine ⟨rfl, ?_⟩
        rcases accept_ok hacc with ⟨hne, rfl⟩ | ⟨rfl, hsnap, -⟩
        · refine Or.inl ⟨?_, Nat.le_refl _⟩
          unfold acceptTransaction
          rw [hres]
          dsimp only
          split
          · rename_i h
            cases h
            exact absurd rfl hne
          · rfl
        · have hsize : pool.size = (mesh.node n).mempool.size + 1 := by
            rw [size_eq, size_eq, hsnap, List.length_cons]
          have hlimit := (accept_limits hacc).2.2.1
          have heq : mesh.acceptTransaction n tx = (mesh.setNode n { mesh.node n with mempool := pool }).announce n
              (Node.makeTransactionFrame tx) := by
            simp [acceptTransaction, hres]
          rw [heq]
          rcases announce_cases n (Node.makeTransactionFrame tx) (mesh.setNode n { mesh.node n with mempool := pool }) with
            hsame | ⟨sent, hsent, hsame⟩
          · exact Or.inl ⟨hsame, by dsimp only; omega⟩
          · refine Or.inr ⟨sent, ?_, hsize, by dsimp only; omega, hsame⟩
            obtain ⟨data, -, hframe⟩ := bind_ok.mp hsent
            rw [ite_error_ok, pure_ok] at hframe
            rw [← hframe.2]

theorem setNode_self (mesh : Mesh K N) (n : N) : mesh.setNode n (mesh.node n) = mesh := by
  simp [setNode]

theorem commitMined_cases (n : N) (candidate : Block) (mesh : Mesh K N) : mesh.commitMined n candidate = mesh ∨
    ∃ after, Mines (mesh.node n) candidate after ∧
      mesh.commitMined n candidate = (mesh.setNode n after).announce n (makeBlocksFrame candidate) := by
  unfold commitMined
  cases hres : (mesh.node n).commitMined candidate with
  | mk result after =>
    cases result with
    | error e =>
      have hsame := commit_throws (show ((mesh.node n).commitMined candidate).1 = .error e by rw [hres])
      have hafter : after = mesh.node n := (congrArg Prod.snd hres).symm.trans hsame
      left
      dsimp only
      rw [hafter, setNode_self]
    | ok result => exact Or.inr ⟨after, commitMined_ok hres, rfl⟩

theorem submitPoolSolution_cases (n : N) (candidate : Block) (mesh : Mesh K N) :
    mesh.submitPoolSolution n candidate = mesh ∨ ∃ after, Mines (mesh.node n) candidate after ∧
      mesh.submitPoolSolution n candidate = (mesh.setNode n after).announce n (makeBlocksFrame candidate) := by
  unfold submitPoolSolution
  cases hres : (mesh.node n).submitPoolSolution candidate with
  | mk result after =>
    cases result with
    | error e =>
      have hsame := commit_throws (show ((mesh.node n).submitPoolSolution candidate).1 = .error e by rw [hres])
      have hafter : after = mesh.node n := (congrArg Prod.snd hres).symm.trans hsame
      left
      dsimp only
      rw [hafter, setNode_self]
    | ok accepted =>
      rcases submitPoolSolution_ok hres with ⟨rfl, rfl⟩ | ⟨rfl, hm⟩
      · left
        dsimp only
        rw [setNode_self]
      · exact Or.inr ⟨after, hm, rfl⟩

/-! ## The heights on their way -/

def announcedHeight (frame : P2PFrame) : Option Nat :=
  match frame.type with
  | .blocks =>
    match readAll Node.readRelayedBlocks "trailing bytes in relayed blocks payload" frame.payload with
    | .ok [block] => some block.header.height.toNat
    | _ => none
  | _ => none

/-- A node takes a block only after all blocks below it. -/
def heights : Flood.Order Nat := ⟨fun t p => ∀ q < p, q ∈ t, fun hsub hr q hq => hsub (hr q hq)⟩

def chainLength (mesh : Mesh K N) (n : N) : Nat := ((mesh.node n).storage.getD []).length

/-- The positions that each node has filled, and those on their way. -/
def reached (mesh : Mesh K N) : Flood.State N Nat :=
  ⟨fun n => {p | p < mesh.chainLength n}, mesh.wires.items announcedHeight⟩

end Mesh

/-- The chain that all nodes mine; each of its blocks can be announced. -/
structure Trunk (K : Crypto) (trunk : List Block) : Prop where
  loadable : Loadable K trunk
  small : ∀ block ∈ trunk, (blockFrame block).payload.length ≤ czrP2PMaxPayload

namespace Trunk

variable {trunk : List Block} (h : Trunk K trunk)
include h

theorem read {block : Block} (hb : block ∈ trunk) :
    readAll Node.readRelayedBlocks "trailing bytes in relayed blocks payload" (blockFrame block).payload = .ok [block] := by
  have hsize := h.small block hb
  refine readAll_ok.mpr ((readRelayedBlocks_exact _ _ _).mpr ⟨⟨⟨by simp, by simp [maxBatch]⟩, ?_⟩, ?_⟩)
  · intro b hb'
    rw [List.mem_singleton] at hb'
    subst hb'
    refine ⟨(h.loadable.stored b hb).1, ?_⟩
    simp only [blockFrame, writeSized, List.length_append] at hsize
    omega
  · simp [blockFrame, blockList]

theorem height {block : Block} {p : Nat} (hb : trunk[p]? = some block) : block.header.height.toNat = p := by
  obtain ⟨u, t, hr⟩ := h.loadable.replay
  exact hr.height p block hb

theorem announced {block : Block} {p : Nat} (hb : trunk[p]? = some block) :
    Mesh.announcedHeight (blockFrame block) = some p := by
  have hread := h.read (List.mem_of_getElem? hb)
  rw [Mesh.announcedHeight]
  show (match readAll Node.readRelayedBlocks "trailing bytes in relayed blocks payload" (blockFrame block).payload with
    | .ok [block] => some block.header.height.toNat
    | _ => none) = _
  rw [hread]
  exact congrArg some (h.height hb)

theorem frame {block : Block} (hb : block ∈ trunk) : makeBlocksFrame block = .ok (blockFrame block) := by
  obtain ⟨hfits, hsize⟩ := h.loadable.stored block hb
  have hmax : maxBlockBytes ≤ uint32Max := by decide
  exact makeBlocksFrame_ok (hfits.mono decodeLimit_le) (by omega)

theorem take {l : Nat} (hl : 0 < l) : Loadable K (trunk.take l) := by
  have hall := h.loadable
  obtain ⟨u, t, hr⟩ := hall.replay
  have hpos := List.length_pos_of_ne_nil hr.ne_nil
  rw [← List.take_append_drop l trunk] at hall
  refine hall.of_append fun he => ?_
  have := congrArg List.length he
  rw [List.length_take, List.length_nil] at this
  omega

omit h in
theorem take_succ {l : Nat} {block : Block} (hb : trunk[l]? = some block) : trunk.take (l + 1) = trunk.take l ++ [block] := by
  rw [List.take_add_one, hb]
  rfl

theorem loaded {node : Node K} {l : Nat} (hl : 0 < l) (hnode : node.storage = some (trunk.take l)) :
    node.storage.load K = .ok (trunk.take l) := load_ok.mpr ⟨hnode, h.take hl⟩

theorem handleBlocks_old {node : Node K} {l p : Nat} {block : Block} (hl : 0 < l)
    (hnode : node.storage = some (trunk.take l)) (hlen : l ≤ trunk.length) (hb : trunk[p]? = some block) (hp : p < l) :
    node.handleBlocks (blockFrame block).payload = (.ok (), node) := by
  have hmem := List.mem_of_getElem? hb
  obtain ⟨u, t, hr⟩ := (h.take hl).replay
  have hfits := fun tx htx => (((h.loadable.stored block hmem).1.mono decodeLimit_le).transactions tx htx).1
  obtain ⟨st, hst⟩ := relayBlock_returns (K := K) hfits ⟨trunk.take l, u, t⟩
  have hfold : [block].foldlM (Node.relayBlock K) ⟨trunk.take l, u, t⟩ = .ok st := by
    rw [List.foldlM_cons, hst]
    rfl
  have hsame : st = ⟨trunk.take l, u, t⟩ := by
    rcases relayBlock_ok hst with hsame | ⟨hchain, -⟩
    · exact hsame
    · -- a block that was appended has the height of its place
      obtain ⟨hr', -⟩ := relayBlocks_ok ⟨trunk.take l, u, t⟩ hr hfold
      have hlast : st.chain[l]? = some block := by
        rw [hchain]
        simp [List.length_take, Nat.min_eq_left hlen]
      have := hr'.height l block hlast
      rw [h.height hb] at this
      omega
  rw [handleBlocks_fold (h.loaded hl hnode) (h.read hmem) hr hfold, hsame, ← hnode]

theorem handleBlocks_next {node : Node K} {l : Nat} {block : Block} (hl : 0 < l)
    (hnode : node.storage = some (trunk.take l)) (hb : trunk[l]? = some block) :
    node.handleBlocks (blockFrame block).payload = (.ok (), { node with storage := some (trunk.take (l + 1)) }) := by
  have hafter : Loadable K (trunk.take l ++ [block]) := by
    rw [← take_succ hb]
    exact h.take (Nat.succ_pos l)
  have hsize := h.small block (List.mem_of_getElem? hb)
  simp only [blockFrame, writeSized, List.length_append] at hsize
  have hpayload : (blockFrame block).payload = (blocksFrameOf [block]).payload := by
    simp [blockFrame, blocksFrameOf, blockList]
  rw [hpayload, handleBlocks_eq (h.loaded hl hnode) (by simp) (by simp [maxBatch]) hafter, take_succ hb]
  intro b hb'
  rw [List.mem_singleton] at hb'
  subst hb'
  omega

theorem mined {node after : Node K} {l : Nat} {candidate : Block} (hnode : node.storage = some (trunk.take l))
    (hlen : l ≤ trunk.length) (hmem : candidate ∈ trunk) (hm : Mines node candidate after) :
    trunk[l]? = some candidate ∧
      after = { node with storage := some (trunk.take (l + 1)), mempool := Mempool.empty K } := by
  obtain ⟨chain, u, t, u', t', hload, hr, happ, rfl⟩ := hm
  obtain rfl : trunk.take l = chain := Option.some.inj (hnode.symm.trans (load_ok.mp hload).1)
  obtain ⟨p, hp⟩ := List.mem_iff_getElem?.mp hmem
  have hlast : (trunk.take l ++ [candidate])[l]? = some candidate := by
    simp [List.length_take, Nat.min_eq_left hlen]
  have hheight := (hr.snoc happ).height l candidate hlast
  rw [h.height hp] at hheight
  subst hheight
  exact ⟨hp, by rw [take_succ hp]⟩

end Trunk

/-! ## What every step keeps -/

/-- Every node has a beginning of the trunk, of `base` blocks or more, and only its blocks and transactions are on their
way, in causal order. -/
structure Mesh.Grows (trunk : List Block) (peers : N → List N) (base : N → Nat) (mesh : Mesh K N) : Prop where
  peers_eq : mesh.peers = peers
  chain : ∀ n, ∃ l, (0 < l ∧ base n ≤ l) ∧ l ≤ trunk.length ∧ (mesh.node n).storage = some (trunk.take l)
  linked : ∀ {x y frame}, frame ∈ mesh.wires x y → y ∈ peers x
  frames : ∀ {x y frame}, frame ∈ mesh.wires x y → frame.type = .transaction ∨ ∃ block ∈ trunk, frame = blockFrame block
  causal : Causal peers Mesh.heights mesh.reached

namespace Mesh

theorem announcedHeight_transaction {frame : P2PFrame} (h : frame.type = .transaction) : announcedHeight frame = none := by
  rw [announcedHeight, h]

theorem setNode_storage {mesh : Mesh K N} {n : N} {node : Node K} (h : node.storage = (mesh.node n).storage) (m : N) :
    ((mesh.setNode n node).node m).storage = (mesh.node m).storage := by
  by_cases hm : m = n
  · subst hm
    simp [setNode, h]
  · simp [setNode, hm]

omit [DecidableEq N] in
theorem reached_congr (mesh mesh' : Mesh K N) (hnode : ∀ n, (mesh'.node n).storage = (mesh.node n).storage)
    (hwires : mesh'.wires.items announcedHeight = mesh.wires.items announcedHeight) : mesh'.reached = mesh.reached := by
  simp only [reached, chainLength, hnode, hwires]

section
variable {trunk : List Block} {peers : N → List N} {base : N → Nat} {mesh : Mesh K N}

theorem reached_take (mesh : Mesh K N) (h : Trunk K trunk) {n : N} {l : Nat} {block : Block} {node : Node K} (hlen : l ≤ trunk.length)
    (hbefore : (mesh.node n).storage = some (trunk.take l)) (hafter : node.storage = some (trunk.take (l + 1)))
    (hb : trunk[l]? = some block) (targets : List N) :
    reached { mesh.setNode n node with wires := mesh.wires.send n targets (blockFrame block) } =
      mesh.reached.take n l targets := by
  have hlt := (List.getElem?_eq_some_iff.mp hb).1
  simp only [reached, Flood.State.take, Wires.items_send_some (h.announced hb)]
  congr 1
  funext m
  by_cases hm : m = n
  · subst hm
    simp only [chainLength, setNode, Function.update_self, hbefore, hafter, Option.getD_some, List.length_take]
    rw [Nat.min_eq_left hlen, Nat.min_eq_left hlt]
    ext q
    simp only [Set.mem_ofPred_eq, Set.mem_insert_iff]
    omega
  · simp [chainLength, setNode, hm]

omit [DecidableEq N] in
theorem ready_next {n : N} {l : Nat} (hlen : l ≤ trunk.length) (hl : (mesh.node n).storage = some (trunk.take l)) :
    heights.ready (mesh.reached.known n) l := by
  intro q hq
  simp only [reached, chainLength, hl, Option.getD_some, List.length_take, Set.mem_ofPred_eq]
  omega

theorem Grows.acceptTransaction (h : mesh.Grows trunk peers base) (n : N) (tx : Transaction) :
    (mesh.acceptTransaction n tx).Grows trunk peers base := by
  obtain ⟨node, hnode, ⟨heq, -⟩ | ⟨sent, hsent, -, -, heq⟩⟩ := acceptTransaction_cases n tx mesh
  · have hstorage := setNode_storage hnode
    rw [heq]
    exact ⟨h.peers_eq, fun m => hstorage m ▸ h.chain m, h.linked, h.frames,
      reached_congr mesh (mesh.setNode n node) hstorage rfl ▸ h.causal⟩
  · have hstorage := setNode_storage hnode
    have hreached := reached_congr mesh
      { mesh.setNode n node with wires := mesh.wires.send n (mesh.peers n) sent } hstorage
      (Wires.items_send_none (announcedHeight_transaction hsent) _ _ _)
    rw [heq]
    refine ⟨h.peers_eq, fun m => hstorage m ▸ h.chain m, fun {x y frame} hf => ?_, fun {x y frame} hf => ?_,
      hreached ▸ h.causal⟩
    · rcases Wires.mem_send.mp hf with hf | ⟨rfl, hy, -⟩
      · exact h.linked hf
      · exact h.peers_eq ▸ hy
    · rcases Wires.mem_send.mp hf with hf | ⟨-, -, rfl⟩
      · exact h.frames hf
      · exact Or.inl hsent

theorem Grows.receive (h : mesh.Grows trunk peers base) {src dst : N} {frame : P2PFrame} {rest : List P2PFrame}
    (hw : mesh.wires src dst = frame :: rest) (hf : frame.type = .transaction) :
    Grows trunk peers base { mesh with wires := mesh.wires.receive src dst } := by
  have hreached := reached_congr mesh { mesh with wires := mesh.wires.receive src dst } (fun _ => rfl)
    (Wires.items_receive_none hw (announcedHeight_transaction hf))
  exact ⟨h.peers_eq, h.chain, fun hm => h.linked (Wires.mem_of_receive hm), fun hm => h.frames (Wires.mem_of_receive hm),
    hreached ▸ h.causal⟩

theorem Grows.take (ht : Trunk K trunk) (h : mesh.Grows trunk peers base) {before : Mesh K N} {n : N} {l : Nat} {block : Block}
    {node : Node K} {targets : List N} (hpeers : before.peers = mesh.peers) (hnodes : before.node = mesh.node)
    (hsub : ∀ {x y frame}, frame ∈ before.wires x y → frame ∈ mesh.wires x y)
    (hbase : base n ≤ l) (hbefore : (mesh.node n).storage = some (trunk.take l))
    (hafter : node.storage = some (trunk.take (l + 1))) (hb : trunk[l]? = some block) (htargets : targets ⊆ peers n)
    (hstep : Flood.Step peers heights mesh.reached (before.reached.take n l targets)) :
    Grows trunk peers base { before.setNode n node with wires := before.wires.send n targets (blockFrame block) } := by
  have hlt := (List.getElem?_eq_some_iff.mp hb).1
  have hreached := reached_take before ht (Nat.le_of_lt hlt) (hnodes ▸ hbefore) hafter hb targets
  refine ⟨hpeers.trans h.peers_eq, fun m => ?_, fun {x y frame} hf => ?_, fun {x y frame} hf => ?_,
    hreached ▸ hstep.causal h.causal⟩
  · by_cases hm : m = n
    · subst hm
      exact ⟨l + 1, ⟨Nat.succ_pos l, Nat.le_succ_of_le hbase⟩, hlt, by simp [setNode, hafter]⟩
    · simpa [setNode, hm, hnodes] using h.chain m
  · rcases Wires.mem_send.mp hf with hf | ⟨rfl, hy, -⟩
    · exact h.linked (hsub hf)
    · exact htargets hy
  · rcases Wires.mem_send.mp hf with hf | ⟨-, -, rfl⟩
    · exact h.frames (hsub hf)
    · exact Or.inr ⟨block, List.mem_of_getElem? hb, rfl⟩

theorem Grows.mined (ht : Trunk K trunk) (h : mesh.Grows trunk peers base) {n : N} {candidate : Block}
    (hmem : candidate ∈ trunk) {after : Node K} (hm : Mines (mesh.node n) candidate after) :
    Grows trunk peers base ((mesh.setNode n after).announce n (makeBlocksFrame candidate)) := by
  obtain ⟨l, ⟨hl, hbase⟩, hlen, hnode⟩ := h.chain n
  obtain ⟨hb, rfl⟩ := ht.mined hnode hlen hmem hm
  have hstep : Flood.Step peers heights mesh.reached (mesh.reached.take n l (peers n)) :=
    .create (ready_next hlen hnode)
  rw [ht.frame hmem, announce, broadcast_eq (ht.small candidate hmem)]
  have hpeers : (mesh.setNode n { mesh.node n with
      storage := some (trunk.take (l + 1)), mempool := Mempool.empty K }).peers n = peers n := by
    rw [← h.peers_eq]
    rfl
  rw [hpeers]
  exact h.take ht rfl rfl id hbase hnode rfl hb (List.Subset.refl _) hstep

theorem Grows.readOld (ht : Trunk K trunk) (h : mesh.Grows trunk peers base) {src dst : N} {block : Block}
    {rest : List P2PFrame} (hw : mesh.wires src dst = blockFrame block :: rest) {p l : Nat}
    (hb : trunk[p]? = some block) (hl : (mesh.node dst).storage = some (trunk.take l)) (hlen : l ≤ trunk.length)
    (hp : p < l) : Grows trunk peers base { mesh with wires := mesh.wires.receive src dst } := by
  have hwire : mesh.reached.wires src dst = p :: rest.filterMap announcedHeight := by
    simp [reached, Wires.items, hw, ht.announced hb]
  have hstep : Flood.Step peers heights mesh.reached (mesh.reached.receive src dst) := by
    refine .drop hwire (Or.inl ?_)
    simp only [reached, chainLength, hl, Option.getD_some, List.length_take, Set.mem_ofPred_eq]
    omega
  have hreached : reached { mesh with wires := mesh.wires.receive src dst } = mesh.reached.receive src dst := by
    simp only [reached, Flood.State.receive, Wires.items_receive_some hw (ht.announced hb)]
    rfl
  exact ⟨h.peers_eq, h.chain, fun hm => h.linked (Wires.mem_of_receive hm), fun hm => h.frames (Wires.mem_of_receive hm),
    hreached ▸ hstep.causal h.causal⟩

def passedOn (trunk : List Block) (src dst : N) (l : Nat) (block : Block) (mesh : Mesh K N) : Mesh K N :=
  { ({ mesh with wires := mesh.wires.receive src dst } : Mesh K N).setNode dst
      { mesh.node dst with storage := some (trunk.take (l + 1)) } with
    wires := (mesh.wires.receive src dst).send dst ((mesh.peers dst).filter fun peer => peer ≠ src) (blockFrame block) }

theorem Grows.readNext (ht : Trunk K trunk) (h : mesh.Grows trunk peers base) {src dst : N} {block : Block}
    {rest : List P2PFrame} (hw : mesh.wires src dst = blockFrame block :: rest) {l : Nat} (hbase : base dst ≤ l)
    (hb : trunk[l]? = some block) (hl : (mesh.node dst).storage = some (trunk.take l)) :
    Grows trunk peers base (mesh.passedOn trunk src dst l block) := by
  have hlt := (List.getElem?_eq_some_iff.mp hb).1
  have hwire : mesh.reached.wires src dst = l :: rest.filterMap announcedHeight := by
    simp [reached, Wires.items, hw, ht.announced hb]
  have hreached : reached { mesh with wires := mesh.wires.receive src dst } = mesh.reached.receive src dst := by
    simp only [reached, Flood.State.receive, Wires.items_receive_some hw (ht.announced hb)]
    rfl
  have hsub : ((mesh.peers dst).filter fun peer => peer ≠ src) ⊆ peers dst := by
    rw [← h.peers_eq]
    exact List.filter_subset_self _
  have hall : ∀ m ∈ peers dst, m = src ∨ m ∈ (mesh.peers dst).filter fun peer => peer ≠ src := by
    intro m hm
    by_cases hms : m = src
    · exact Or.inl hms
    · exact Or.inr (List.mem_filter.mpr ⟨h.peers_eq ▸ hm, by simpa using hms⟩)
  have hstep : Flood.Step peers heights mesh.reached ((mesh.reached.receive src dst).take dst l _) :=
    .pass hwire (ready_next (Nat.le_of_lt hlt) hl) hsub hall
  rw [← hreached] at hstep
  exact h.take ht rfl rfl Wires.mem_of_receive hbase hl rfl hb hsub hstep

theorem read_of_ok {choice : Node.Choice K} {src dst : N} {frame : P2PFrame} {rest : List P2PFrame} {after : Mesh K N}
    (hpeer : src ∈ mesh.peers dst) (hw : mesh.wires src dst = frame :: rest)
    (hh : ({ mesh with wires := mesh.wires.receive src dst } : Mesh K N).handleFrame choice src dst frame = (.ok (), after)) :
    mesh.read choice src dst = after := by
  rw [read, if_pos hpeer, hw]
  dsimp only
  rw [hh]

theorem handleBlocks_same (mesh : Mesh K N) {src dst : N} {payload : Bytes}
    (h : (mesh.node dst).handleBlocks payload = (.ok (), mesh.node dst)) :
    mesh.handleBlocks src dst payload = (.ok (), mesh) := by
  unfold handleBlocks
  rw [h]
  simp [accepted, setNode_self]

theorem handleBlocks_one (mesh : Mesh K N) {src dst : N} {payload : Bytes} {chain : List Block} {block : Block}
    (hbefore : (mesh.node dst).storage = some chain) (hframe : makeBlocksFrame block = .ok (blockFrame block))
    (hsmall : (blockFrame block).payload.length ≤ czrP2PMaxPayload)
    (h : (mesh.node dst).handleBlocks payload = (.ok (), { mesh.node dst with storage := some (chain ++ [block]) })) :
    mesh.handleBlocks src dst payload = (.ok (),
      { mesh.setNode dst { mesh.node dst with storage := some (chain ++ [block]) } with
        wires := mesh.wires.send dst ((mesh.peers dst).filter fun peer => peer ≠ src) (blockFrame block) }) := by
  unfold handleBlocks
  rw [h]
  simp only [accepted, hbefore, Option.getD_some, List.drop_left, List.foldl_cons, List.foldl_nil, gossip, hframe]
  rw [broadcastExcept_eq hsmall]
  rfl

/-- What the reader of a connection does with the next frame: it hands a transaction to the pool, drops a block that the
node has, or takes the next block. -/
theorem Grows.read_cases (ht : Trunk K trunk) (h : mesh.Grows trunk peers base)
    (hsymm : ∀ x y, y ∈ peers x → x ∈ peers y) (choice : Node.Choice K) {src dst : N} {frame : P2PFrame}
    {rest : List P2PFrame} (hw : mesh.wires src dst = frame :: rest) :
    frame.type = .transaction ∧ mesh.read choice src dst =
        ({ mesh with wires := mesh.wires.receive src dst } : Mesh K N).handleTransaction dst frame.payload ∨
      ∃ l block, (base dst ≤ l ∧ l ≤ trunk.length) ∧ (mesh.node dst).storage = some (trunk.take l) ∧
        frame = blockFrame block ∧ ((∃ p < l, trunk[p]? = some block ∧
          mesh.read choice src dst = { mesh with wires := mesh.wires.receive src dst }) ∨
        trunk[l]? = some block ∧ mesh.read choice src dst = mesh.passedOn trunk src dst l block) := by
  have hmem : frame ∈ mesh.wires src dst := by rw [hw]; exact List.mem_cons_self
  have hpeer : src ∈ mesh.peers dst := h.peers_eq ▸ hsymm src dst (h.linked hmem)
  rcases h.frames hmem with htype | ⟨block, hb, rfl⟩
  · refine Or.inl ⟨htype, read_of_ok hpeer hw ?_⟩
    rw [handleFrame, htype]
  · obtain ⟨l, ⟨hl, hbase⟩, hlen, hnode⟩ := h.chain dst
    obtain ⟨p, hp⟩ := List.mem_iff_getElem?.mp hb
    refine Or.inr ⟨l, block, ⟨hbase, hlen⟩, hnode, rfl, ?_⟩
    -- a block that is read is one the node has or the next one
    have hle : p ≤ l := by
      have hwire : mesh.reached.wires src dst = p :: rest.filterMap announcedHeight := by
        simp [reached, Wires.items, hw, ht.announced hp]
      have hknown : mesh.reached.known dst = {q | q < l} := by
        simp [reached, chainLength, hnode, Nat.min_eq_left hlen]
      rcases h.causal.ready_head hwire with hk | hr
      · rw [hknown] at hk
        exact Nat.le_of_lt hk
      · by_contra hlt
        have := hr l (by omega)
        rw [hknown] at this
        exact Nat.lt_irrefl l this
    rcases Nat.lt_or_eq_of_le hle with hlt | rfl
    · refine Or.inl ⟨p, hlt, hp, read_of_ok hpeer hw ?_⟩
      exact handleBlocks_same { mesh with wires := mesh.wires.receive src dst }
        (ht.handleBlocks_old hl hnode hlen hp hlt)
    · refine Or.inr ⟨hp, read_of_ok hpeer hw ?_⟩
      have hnext := ht.handleBlocks_next hl hnode hp
      rw [Trunk.take_succ hp] at hnext
      rw [passedOn, Trunk.take_succ hp]
      exact handleBlocks_one { mesh with wires := mesh.wires.receive src dst } hnode (ht.frame hb) (ht.small block hb) hnext

theorem handleTransaction_cases (dst : N) (payload : Bytes) (mesh : Mesh K N) :
    mesh.handleTransaction dst payload = mesh ∨
      ∃ tx, Transaction.deserializeFull payload = .ok tx ∧ mesh.handleTransaction dst payload = mesh.acceptTransaction dst tx := by
  unfold handleTransaction
  split
  · exact Or.inl rfl
  · split
    · exact Or.inl rfl
    · rename_i tx htx
      exact Or.inr ⟨tx, htx, rfl⟩

theorem Grows.read (ht : Trunk K trunk) (h : mesh.Grows trunk peers base) (hsymm : ∀ x y, y ∈ peers x → x ∈ peers y)
    (choice : Node.Choice K) (src dst : N) : (mesh.read choice src dst).Grows trunk peers base := by
  cases hw : mesh.wires src dst with
  | nil =>
    have hsame : mesh.read choice src dst = mesh := by
      unfold Mesh.read
      rw [hw]
      split <;> rfl
    rw [hsame]
    exact h
  | cons frame rest =>
    rcases h.read_cases ht hsymm choice hw with ⟨htype, heq⟩ | ⟨l, block, ⟨hbase, hlen⟩, hnode, rfl, hcase⟩
    · have hrecv := h.receive hw htype
      rw [heq]
      rcases handleTransaction_cases dst frame.payload { mesh with wires := mesh.wires.receive src dst } with
        hsame | ⟨tx, -, hsame⟩
      · rw [hsame]
        exact hrecv
      · rw [hsame]
        exact hrecv.acceptTransaction dst tx
    · rcases hcase with ⟨p, hp, hb, heq⟩ | ⟨hb, heq⟩
      · rw [heq]
        exact h.readOld ht hw hb hnode hlen hp
      · rw [heq]
        exact h.readNext ht hw hbase hb hnode

/-! ## Whole runs -/

/-- The calls of a run in which all nodes mine the trunk: no header is asked for, and no connection breaks. -/
def Event.Mines (trunk : List Block) : Event K N → Prop
  | .acceptTransaction _ _ => True
  | .commitMined _ candidate => candidate ∈ trunk
  | .submitPoolSolution _ candidate => candidate ∈ trunk
  | .requestHeaders _ _ => False
  | .read _ _ _ => True
  | .lost _ _ => False

theorem Grows.step (ht : Trunk K trunk) (h : mesh.Grows trunk peers base) (hsymm : ∀ x y, y ∈ peers x → x ∈ peers y)
    {event : Event K N} (he : event.Mines trunk) : (mesh.step event).Grows trunk peers base := by
  cases event with
  | acceptTransaction n tx => exact h.acceptTransaction n tx
  | commitMined n candidate =>
    show (mesh.commitMined n candidate).Grows trunk peers base
    rcases commitMined_cases n candidate mesh with hsame | ⟨after, hm, heq⟩
    · rw [hsame]
      exact h
    · rw [heq]
      exact h.mined ht he hm
  | submitPoolSolution n candidate =>
    show (mesh.submitPoolSolution n candidate).Grows trunk peers base
    rcases submitPoolSolution_cases n candidate mesh with hsame | ⟨after, hm, heq⟩
    · rw [hsame]
      exact h
    · rw [heq]
      exact h.mined ht he hm
  | requestHeaders n peer => exact he.elim
  | read choice src dst => exact h.read ht hsymm choice src dst
  | lost src dst => exact he.elim

theorem Grows.run (ht : Trunk K trunk) (hsymm : ∀ x y, y ∈ peers x → x ∈ peers y) :
    ∀ {events : List (Event K N)} {mesh : Mesh K N}, mesh.Grows trunk peers base → (∀ event ∈ events, event.Mines trunk) →
      (mesh.run events).Grows trunk peers base
  | [], _, h, _ => h
  | event :: events, mesh, h, he => by
    rw [List.forall_mem_cons] at he
    show ((mesh.step event).run events).Grows trunk peers base
    exact Grows.run ht hsymm (h.step ht hsymm he.1) he.2

omit [DecidableEq N] in
theorem Grows.start {chain : List Block} (hne : chain ≠ []) (hbegins : chain <+: trunk) (hquiet : mesh.wires.Quiet)
    (hstart : ∀ n, (mesh.node n).storage = some chain) : mesh.Grows trunk mesh.peers fun _ => chain.length := by
  have hwires : ∀ x y, mesh.wires x y = [] := hquiet
  refine ⟨rfl, fun n => ⟨chain.length, ⟨List.length_pos_of_ne_nil hne, Nat.le_refl _⟩, hbegins.length_le, ?_⟩,
    fun {x y frame} hf => ?_, fun {x y frame} hf => ?_, .of_quiet (fun x y => ?_) fun x y => ?_⟩
  · rw [hstart n, ← List.prefix_iff_eq_take.mp hbegins]
  · rw [hwires] at hf
    cases hf
  · rw [hwires] at hf
    cases hf
  · simp [reached, Wires.items, hwires]
  · simp only [reached, chainLength, hstart]

def Delivers (mesh : Mesh K N) : List (Node.Choice K × N × N) → Prop
  | [] => True
  | (choice, src, dst) :: rest => mesh.wires src dst ≠ [] ∧ (mesh.read choice src dst).Delivers rest

section
variable [Fintype N]

def room (trunk : List Block) (node : Node K) : Nat :=
  (trunk.length - (node.storage.getD []).length) + (maxTransactions - node.mempool.size)

omit [DecidableEq N] [Fintype N] in
theorem Grows.length_le (h : mesh.Grows trunk peers base) (hquiet : mesh.reached.wires.Quiet) {x y : N}
    (hp : Relation.ReflTransGen (fun x y => y ∈ peers x) x y) : mesh.chainLength x ≤ mesh.chainLength y := by
  by_contra hlt
  exact Nat.lt_irrefl _ (h.causal.subset_of_path hquiet hp (Nat.lt_of_not_le hlt))

omit [DecidableEq N] [Fintype N] in
theorem Grows.agree (h : mesh.Grows trunk peers base) (hsymm : ∀ x y, y ∈ peers x → x ∈ peers y)
    (hquiet : ∀ x y, ∀ frame ∈ mesh.wires x y, frame.type ≠ .blocks) {x y : N}
    (hp : Relation.ReflTransGen (fun x y => y ∈ peers x) x y) : (mesh.node x).storage = (mesh.node y).storage := by
  have hitems : mesh.reached.wires.Quiet := by
    intro x y
    refine List.filterMap_eq_nil_iff.mpr fun frame hf => ?_
    have hne := hquiet x y frame hf
    unfold announcedHeight
    split
    · rename_i htype
      exact absurd htype hne
    · rfl
  have : Std.Symm fun x y => y ∈ peers x := ⟨hsymm⟩
  have hback := Relation.ReflTransGen.stdSymm.symm _ _ hp
  have hsame : mesh.chainLength x = mesh.chainLength y := Nat.le_antisymm (h.length_le hitems hp) (h.length_le hitems hback)
  obtain ⟨l, -, hlen, hnode⟩ := h.chain x
  obtain ⟨l', -, hlen', hnode'⟩ := h.chain y
  simp only [chainLength, hnode, hnode', Option.getD_some, List.length_take, Nat.min_eq_left hlen,
    Nat.min_eq_left hlen'] at hsame
  rw [hnode, hnode', hsame]

end

end

end Mesh

end

/-! ## Two nodes -/

def toyMesh : Mesh toyCrypto Bool := ⟨fun _ => toyNode [toyGenesis], fun n => [!n], fun _ _ => 1, fun _ _ => []⟩

end Caesar
