import Mathlib.Data.Set.Card
import Caesar.Peers
import Caesar.SessionSound

/-!
# Sessions and readers

A handler opens a session for its own peer only, so sessions belong to readers
as long as no reader ends with its session open. The code lets it: nothing on
the way out of a reader looks at the sessions.
-/

namespace Caesar

open Codec

section
variable {K : Crypto}

/-! ## Whose sessions a frame touches -/

theorem completeSession_other (node : Node K) (walk : Walk K) {id id' : UInt64} (h : id' ≠ id) (headers : List BlockHeader)
    (blocks : List Block) :
    (node.completeSession walk id headers blocks).2.pendingChainSyncs id' = node.pendingChainSyncs id' := by
  unfold Node.completeSession
  cases node.assembleSession headers blocks with
  | error e => exact setPending_of_ne node h none
  | ok candidate =>
    show ((node.replaceChain walk candidate).2.setPending id none).pendingChainSyncs id' = _
    rw [setPending_of_ne _ h, (replaceChain_step node walk candidate).sessions]

theorem receiveSyncBlocks_other (node : Node K) {id id' : UInt64} (h : id' ≠ id) (payload : Bytes) :
    (node.receiveSyncBlocks id payload).2.pendingChainSyncs id' = node.pendingChainSyncs id' := by
  rcases receiveSyncBlocks_cases node id payload with ⟨hsame, -⟩ | ⟨message, p, -, -, -, ⟨hafter, -⟩ | ⟨blocks, hafter, -⟩⟩
  · rw [hsame]
  · rw [hafter, setPending_of_ne node h]
  · rw [hafter, setPending_of_ne node h]

theorem handleFrame_other (node : Node K) (choice : Node.Choice K) {id id' : UInt64} (h : id' ≠ id) (frame : P2PFrame) :
    (node.handleFrame choice id frame).node.pendingChainSyncs id' = node.pendingChainSyncs id' := by
  by_cases hh : frame.type = .headers
  · simp only [Node.handleFrame, hh]
    rcases handleHeaders_node node id choice.sessionId frame.payload with hsame | ⟨headers, -, -, hopen⟩
    · rw [hsame]
    · rw [hopen]
      exact setPending_of_ne node h _
  · by_cases hs : frame.type = .syncBlocks
    · simp only [Node.handleFrame, hs, Outcome.silent]
      rw [handleSyncBlocks_eq]
      split
      · exact receiveSyncBlocks_other node h frame.payload
      · exact receiveSyncBlocks_other node h frame.payload
      · exact (completeSession_other _ _ h _ _).trans (receiveSyncBlocks_other node h frame.payload)
    · rw [handleFrame_sessions choice frame node hh hs]

/-! ## The invariant -/

structure Network.Tidy (net : Network K) : Prop where
  sessions : ∀ id, (net.node.pendingChainSyncs id).isSome → id ∈ net.activeReaders
  readers : net.activeReaders ⊆ net.peers
  room : net.peers.card ≤ maxPeers

/-- A connection closes, or a handler throws, only when the peer has no session open, and `remove_peer` is not called
for a peer that is being read. -/
def Network.Spares (net : Network K) : NetworkEvent K → Prop
  | .frame id choice frame => id ∈ net.activeReaders →
    ∀ e, (net.node.handleFrame choice id frame).result = .error e → e.mentionsTimeout = false →
      (net.node.handleFrame choice id frame).node.pendingChainSyncs id = none
  | .closed id => id ∈ net.activeReaders → net.node.pendingChainSyncs id = none
  | .removePeer id => id ∉ net.activeReaders
  | _ => True

def Network.RunSpares : Network K → List (NetworkEvent K) → Prop
  | _, [] => True
  | net, event :: events => net.Spares event ∧ (net.step event).RunSpares events

/-! ## What one event does -/

variable {net : Network K}

theorem handle_cases (net : Network K) (id : UInt64) (choice : Node.Choice K) (frame : P2PFrame) :
    net.handle id choice frame = { net with node := (net.node.handleFrame choice id frame).node } ∨
      (∃ e, (net.node.handleFrame choice id frame).result = .error e ∧ e.mentionsTimeout = false) ∧
        net.handle id choice frame =
          Network.exitReader id { net with node := (net.node.handleFrame choice id frame).node } := by
  unfold Network.handle
  cases hr : (net.node.handleFrame choice id frame).result with
  | ok u => simp [hr]
  | error e =>
    by_cases ht : e.mentionsTimeout = true
    · simp [hr, ht]
    · simp [hr, ht]

/-- Everything that an event can do to the peers, the readers and the sessions. -/
inductive Network.Change (net : Network K) (event : NetworkEvent K) (after : Network K) : Prop
  | quiet : after.peers = net.peers → after.activeReaders = net.activeReaders →
    after.node.pendingChainSyncs = net.node.pendingChainSyncs → Change net event after
  -- a relay that is not running starts no reader
  | joins : net.peers.card < maxPeers → after.peers = insert net.nextId net.peers →
    net.activeReaders ⊆ after.activeReaders → after.activeReaders ⊆ insert net.nextId net.activeReaders →
    after.node.pendingChainSyncs = net.node.pendingChainSyncs → Change net event after
  | hears (id : UInt64) : id ∈ net.activeReaders → after.peers = net.peers → after.activeReaders = net.activeReaders →
    (∀ other, other ≠ id → after.node.pendingChainSyncs other = net.node.pendingChainSyncs other) → Change net event after
  | ends (id : UInt64) : id ∈ net.activeReaders → net.peers.erase id ⊆ after.peers → after.peers ⊆ net.peers →
    after.activeReaders = net.activeReaders.erase id →
    (∀ other, other ≠ id → after.node.pendingChainSyncs other = net.node.pendingChainSyncs other) →
    (net.Spares event → after.node.pendingChainSyncs id = none) → Change net event after
  | removes (id : UInt64) : after.peers = net.peers.erase id → after.activeReaders = net.activeReaders →
    after.node.pendingChainSyncs = net.node.pendingChainSyncs → (net.Spares event → id ∉ net.activeReaders) →
    Change net event after
  | stops : after.peers = net.peers → after.activeReaders = ∅ → (∀ id, after.node.pendingChainSyncs id = none) →
    Change net event after

theorem exitReader_peers (net : Network K) (id : UInt64) :
    net.peers.erase id ⊆ (net.exitReader id).peers ∧ (net.exitReader id).peers ⊆ net.peers := by
  simp only [Network.exitReader]
  split
  · exact ⟨subset_rfl, Finset.erase_subset id net.peers⟩
  · exact ⟨Finset.erase_subset id net.peers, subset_rfl⟩

theorem addPeer_change (net : Network K) : net.Change .connect net.addPeer := by
  unfold Network.addPeer
  by_cases hfull : net.peers.card ≥ maxPeers
  · rw [if_pos hfull]
    exact .quiet rfl rfl rfl
  · rw [if_neg hfull]
    refine .joins (not_le.mp hfull) rfl ?_ ?_ rfl
    · show net.activeReaders ⊆ if net.running then _ else _
      split
      · exact Finset.subset_insert ..
      · exact subset_rfl
    · show (if net.running then _ else _) ⊆ insert net.nextId net.activeReaders
      split
      · exact subset_rfl
      · exact Finset.subset_insert ..

theorem handle_change {id : UInt64} (hid : id ∈ net.activeReaders) (choice : Node.Choice K) (frame : P2PFrame) :
    net.Change (.frame id choice frame) (net.handle id choice frame) := by
  have hothers : ∀ other, other ≠ id →
      (net.node.handleFrame choice id frame).node.pendingChainSyncs other = net.node.pendingChainSyncs other :=
    fun _ hne => handleFrame_other net.node choice hne frame
  rcases handle_cases net id choice frame with hstay | ⟨⟨e, he, ht⟩, hexit⟩
  · rw [hstay]
    exact .hears id hid rfl rfl hothers
  · rw [hexit]
    obtain ⟨hkeeps, hsub⟩ := exitReader_peers { net with node := (net.node.handleFrame choice id frame).node } id
    exact .ends id hid hkeeps hsub rfl hothers fun hs => hs hid e he ht

theorem step_change (net : Network K) (event : NetworkEvent K) : net.Change event (net.step event) := by
  cases event with
  | connect => exact addPeer_change net
  | frame id choice frame =>
    by_cases hid : id ∈ net.activeReaders
    · rw [Network.step, if_pos hid]
      exact handle_change hid choice frame
    · rw [Network.step, if_neg hid]
      exact .quiet rfl rfl rfl
  | closed id =>
    by_cases hid : id ∈ net.activeReaders
    · rw [Network.step, if_pos hid]
      obtain ⟨hkeeps, hsub⟩ := exitReader_peers net id
      exact .ends id hid hkeeps hsub rfl (fun _ _ => rfl) fun hs => hs hid
    · rw [Network.step, if_neg hid]
      exact .quiet rfl rfl rfl
  | removePeer id => exact .removes id rfl rfl rfl fun hs => hs
  | call call => exact .quiet rfl rfl (call_step net.node call).sessions
  | start => exact .quiet rfl rfl rfl
  | stop =>
    rw [Network.step]
    split
    · exact .quiet rfl rfl rfl
    · exact .stops rfl rfl fun _ => rfl

/-! ## Whole runs -/

theorem Network.Tidy.step (h : net.Tidy) {event : NetworkEvent K} (hs : net.Spares event) : (net.step event).Tidy := by
  cases step_change net event with
  | quiet hpeers hreaders hsessions =>
    refine ⟨?_, ?_, ?_⟩
    · rw [hsessions, hreaders]
      exact h.sessions
    · rw [hreaders, hpeers]
      exact h.readers
    · rw [hpeers]
      exact h.room
  | joins hroom hpeers hkeeps hreaders hsessions =>
    refine ⟨?_, ?_, ?_⟩
    · rw [hsessions]
      exact fun id hsome => hkeeps (h.sessions id hsome)
    · rw [hpeers]
      exact hreaders.trans (Finset.insert_subset_insert _ h.readers)
    · rw [hpeers]
      exact (Finset.card_insert_le ..).trans hroom
  | hears id hid hpeers hreaders hothers =>
    refine ⟨fun other hsome => ?_, ?_, ?_⟩
    · rw [hreaders]
      by_cases he : other = id
      · exact he ▸ hid
      · exact h.sessions other (hothers other he ▸ hsome)
    · rw [hreaders, hpeers]
      exact h.readers
    · rw [hpeers]
      exact h.room
  | ends id hid hkeeps hsub hreaders hothers hended =>
    refine ⟨fun other hsome => ?_, ?_, (Finset.card_le_card hsub).trans h.room⟩
    · -- the session of the reader that ends is gone, the others have their readers
      have hne : other ≠ id := by
        rintro rfl
        rw [hended hs] at hsome
        cases hsome
      rw [hreaders]
      exact Finset.mem_erase.mpr ⟨hne, h.sessions other (hothers other hne ▸ hsome)⟩
    · rw [hreaders]
      exact (Finset.erase_subset_erase id h.readers).trans hkeeps
  | removes id hpeers hreaders hsessions hunread =>
    refine ⟨?_, ?_, ?_⟩
    · rw [hsessions, hreaders]
      exact h.sessions
    · rw [hreaders, hpeers]
      exact Finset.subset_erase.mpr ⟨h.readers, hunread hs⟩
    · rw [hpeers]
      exact Finset.card_erase_le.trans h.room
  | stops hpeers hreaders hsessions =>
    refine ⟨fun id hsome => ?_, ?_, ?_⟩
    · rw [hsessions id] at hsome
      cases hsome
    · rw [hreaders]
      exact Finset.empty_subset _
    · rw [hpeers]
      exact h.room

theorem Network.Tidy.run : ∀ {events : List (NetworkEvent K)} {net : Network K}, net.Tidy → net.RunSpares events →
    (net.run events).Tidy
  | [], _, h, _ => h
  | _ :: _, _, h, hs => (h.step hs.1).run hs.2

structure Network.Fresh (net : Network K) : Prop where
  sessions : ∀ id, net.node.pendingChainSyncs id = none
  readers : net.activeReaders = ∅
  peers : net.peers = ∅

theorem Network.Fresh.tidy (h : net.Fresh) : net.Tidy where
  sessions := by
    intro id hsome
    rw [h.sessions id] at hsome
    cases hsome
  readers := by simp [h.readers]
  room := by simp [h.peers]

/-- While no reader ends with its session open, sessions have readers and there are at most as many as peers. -/
theorem sessions_have_readers {events : List (NetworkEvent K)} (hfresh : net.Fresh) (hs : net.RunSpares events) :
    (∀ id, ((net.run events).node.pendingChainSyncs id).isSome → id ∈ (net.run events).activeReaders) ∧
      {id | ((net.run events).node.pendingChainSyncs id).isSome}.ncard ≤ maxPeers := by
  have htidy := hfresh.tidy.run hs
  refine ⟨htidy.sessions, ?_⟩
  have hsub : {id | ((net.run events).node.pendingChainSyncs id).isSome} ⊆ ↑(net.run events).peers :=
    fun id hid => htidy.readers (htidy.sessions id hid)
  calc {id | ((net.run events).node.pendingChainSyncs id).isSome}.ncard
      ≤ (↑(net.run events).peers : Set UInt64).ncard := Set.ncard_le_ncard hsub (Finset.finite_toSet _)
    _ = (net.run events).peers.card := Set.ncard_coe_finset _
    _ ≤ maxPeers := htidy.room

end

def toyNetwork : Network toyCrypto := ⟨toyNode [toyGenesis, toyFirst], ∅, ∅, 1, true⟩

def toyAnnounced : P2PFrame := Node.headersFrame [toyRival.header]

def toyServed : List (NetworkEvent toyCrypto) :=
  [.connect, .frame 1 toyChoice toyAnnounced, .frame 1 toyChoice (syncBlocksFrameOf ⟨1, 2⟩ []), .closed 1]

theorem sessions_have_readers_toy :
    ((toyNetwork.run (toyServed.take 2)).node.pendingChainSyncs 1).isSome = true ∧
    (toyNetwork.run toyServed).activeReaders = ∅ ∧
    (∀ id, ((toyNetwork.run toyServed).node.pendingChainSyncs id).isSome → id ∈ (toyNetwork.run toyServed).activeReaders) ∧
      {id | ((toyNetwork.run toyServed).node.pendingChainSyncs id).isSome}.ncard ≤ maxPeers := by
  have hfresh : toyNetwork.Fresh := ⟨fun _ => rfl, rfl, rfl⟩
  refine ⟨by decide +kernel, by decide +kernel, sessions_have_readers hfresh ?_⟩
  have hheard : ((toyNetwork.step .connect).node.handleFrame toyChoice 1 toyAnnounced).result = .ok () := by
    decide +kernel
  have hserved : (((toyNetwork.step .connect).step (.frame 1 toyChoice toyAnnounced)).node.handleFrame toyChoice 1
      (syncBlocksFrameOf ⟨1, 2⟩ [])).result = .ok () := by decide +kernel
  have hclosed : (((toyNetwork.step .connect).step (.frame 1 toyChoice toyAnnounced)).step
      (.frame 1 toyChoice (syncBlocksFrameOf ⟨1, 2⟩ []))).node.pendingChainSyncs 1 = none := by decide +kernel
  refine ⟨trivial, fun _ e he => ?_, fun _ e he => ?_, fun _ => hclosed, trivial⟩
  · cases hheard.symm.trans he
  · cases hserved.symm.trans he

def toyLeaks (ids : List UInt64) : List (NetworkEvent toyCrypto) :=
  ids.flatMap fun id => [.connect, .frame id toyChoice toyAnnounced, .closed id]

/-- With no peer and no reader left there are more sessions than peers are allowed. -/
theorem closed_connections_leak_sessions :
    (toyNetwork.run (toyLeaks ((List.range 65).map fun n => UInt64.ofNat (n + 1)))).peers = ∅ ∧
    (toyNetwork.run (toyLeaks ((List.range 65).map fun n => UInt64.ofNat (n + 1)))).activeReaders = ∅ ∧
    ∀ n < 65, ((toyNetwork.run (toyLeaks ((List.range 65).map fun n => UInt64.ofNat (n + 1)))).node.pendingChainSyncs
      (UInt64.ofNat (n + 1))).isSome = true := by
  decide +kernel

end Caesar
