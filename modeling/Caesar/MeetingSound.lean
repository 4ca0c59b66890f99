import Caesar.Lib.Dialogue
import Caesar.Lib.Text
import Caesar.GossipSound
import Caesar.RoundsSound

/-!
# Two nodes that meet

When a connection is made each side asks the other for headers, and then each
reader takes what comes: the other's question, the answer to its own, the other's
requests, and last the blocks. Whatever order the two readers take turns in, each
node ends with the other's offer if that has more work, and else with its own
chain; it hangs up only after the other has all it asked for.
-/

namespace Caesar

open Codec Flood Dialogue

section
variable {K : Crypto}

/-! ## What is said -/

def locatorsFrame (K : Crypto) (chain : List Block) : P2PFrame := ⟨.getHeaders, writeHashes (Node.headerLocators K chain)⟩

def offerFrame (K : Crypto) (mine theirs : List Block) : P2PFrame :=
  Node.headersFrame ((offered K mine theirs).map Block.header)

def wantedFrames (K : Crypto) (session : P2PSyncSessionId) (mine theirs : List Block) : List P2PFrame :=
  (requests (offered K mine theirs)).map
    (if forkPoint K mine theirs = some (mine.length - 1) then getBlocksFrame K else getSyncBlocksFrame K session)

/-- What a node with `mine` holds after it was offered blocks of `theirs`. -/
def settled (K : Crypto) (mine theirs : List Block) : List Block :=
  if work mine < work (offeredChain K mine theirs) then offeredChain K mine theirs else mine

structure Side (K : Crypto) where
  node : Node K
  listening : Bool

/-- Two chains whose nodes can send each other what they have. -/
structure Comparable (K : Crypto) (mine theirs : List Block) : Prop where
  loadsMine : Loadable K mine
  loadsTheirs : Loadable K theirs
  shared : Shared K mine theirs
  compactMine : Compact mine
  compactTheirs : Compact theirs

variable {mine theirs : List Block}

theorem Shared.symm (h : Shared K mine theirs) : Shared K theirs mine := by
  refine ⟨h.genesis.symm, h.collisionFree.mono fun x hx => ?_, fun block hb => h.acyclic block ?_⟩
  · rw [List.flatMap_append] at hx ⊢
    exact List.mem_append.mpr (List.mem_append.mp hx).symm
  · exact List.mem_append.mpr (List.mem_append.mp hb).symm

theorem Comparable.symm (h : Comparable K mine theirs) : Comparable K theirs mine :=
  ⟨h.loadsTheirs, h.loadsMine, h.shared.symm, h.compactTheirs, h.compactMine⟩

theorem wantedFrames_length (session : P2PSyncSessionId) :
    (wantedFrames K session mine theirs).length = (requests (offered K mine theirs)).length := List.length_map ..

theorem wanted_type {session : P2PSyncSessionId} {frame : P2PFrame} (h : frame ∈ wantedFrames K session mine theirs) :
    frame.type ≠ .transaction := by
  obtain ⟨batch, -, rfl⟩ := List.mem_map.mp h
  split
  · simp [getBlocksFrame]
  · simp [getSyncBlocksFrame]

/-! ## The answers to the requests -/

/-- Every node with `theirs` gives these answers, and is not changed by it. -/
def Answers (K : Crypto) (mine theirs : List Block) (reply : P2PFrame → List P2PFrame) : Prop :=
  ∀ {session frame}, frame ∈ wantedFrames K session mine theirs → ∀ {node : Node K} (choice : Node.Choice K) (id : UInt64),
    node.storage.load K = .ok theirs → node.handleFrame choice id frame = ⟨.ok (), node, reply frame⟩

theorem Comparable.serves (h : Comparable K mine theirs) {batch : List Block} (hb : batch ∈ requests (offered K mine theirs)) :
    Serves K theirs batch := by
  obtain ⟨u, t, hr⟩ := h.loadsTheirs.replay
  exact serves_of hr h.shared.right fun b hbb => offered_sub (mem_of_request hb hbb)

theorem Comparable.fits (h : Comparable K mine theirs) {batch : List Block} (hb : batch ∈ requests (offered K mine theirs))
    {block : Block} (hbb : block ∈ batch) : block.Fits uint32Max :=
  (h.loadsTheirs.stored block (offered_sub (mem_of_request hb hbb))).1.mono decodeLimit_le

theorem Comparable.answer_direct (h : Comparable K mine theirs) (hfork : forkPoint K mine theirs = some (mine.length - 1))
    {batch : List Block} (hb : batch ∈ requests (offered K mine theirs)) {node : Node K} (choice : Node.Choice K) (id : UInt64)
    (hload : node.storage.load K = .ok theirs) :
    node.handleFrame choice id (getBlocksFrame K batch) = ⟨.ok (), node, [blocksFrameOf batch]⟩ := by
  obtain ⟨hne, hlen⟩ := requests_mem hb
  exact handleGetBlocks_eq hload (h.serves hb) hne hlen (fun b hbb => h.fits hb hbb)
    ((h.compactTheirs.fitting h.loadsTheirs choice.sessionId mine).direct hfork batch hb)

theorem Comparable.answer_fork (h : Comparable K mine theirs) (hfork : forkPoint K mine theirs ≠ some (mine.length - 1))
    (session : P2PSyncSessionId) {batch : List Block} (hb : batch ∈ requests (offered K mine theirs)) :
    ∃ frames, ∀ {node : Node K} (choice : Node.Choice K) (id : UInt64), node.storage.load K = .ok theirs →
      node.handleFrame choice id (getSyncBlocksFrame K session batch) = ⟨.ok (), node, frames⟩ := by
  obtain ⟨hne, hlen⟩ := requests_mem hb
  obtain ⟨hsmall, hsize⟩ := (h.compactTheirs.fitting h.loadsTheirs session mine).fork hfork batch hb
  obtain ⟨parts, hframes, -, -⟩ := syncFrames_parts session batch (fun b hbb => ⟨h.fits hb hbb, hsmall b hbb⟩) hlen
  refine ⟨parts.map (syncBlocksFrameOf session), fun choice id hload => ?_⟩
  exact handleGetSyncBlocks_eq hload session (h.serves hb) hne hlen hframes fun frame hf =>
    hsize frame (hframes ▸ List.mem_map_of_mem hf)

theorem Comparable.answered (h : Comparable K mine theirs) (frame : P2PFrame) : ∃ frames,
    ∀ {session}, frame ∈ wantedFrames K session mine theirs → ∀ {node : Node K} (choice : Node.Choice K) (id : UInt64),
      node.storage.load K = .ok theirs → node.handleFrame choice id frame = ⟨.ok (), node, frames⟩ := by
  by_cases hany : ∃ session, frame ∈ wantedFrames K session mine theirs
  · obtain ⟨session, hf⟩ := hany
    obtain ⟨batch, hb, rfl⟩ := List.mem_map.mp hf
    by_cases hfork : forkPoint K mine theirs = some (mine.length - 1)
    · rw [if_pos hfork]
      exact ⟨[blocksFrameOf batch], fun _ => fun choice id => h.answer_direct hfork hb choice id⟩
    · rw [if_neg hfork]
      obtain ⟨frames, hframes⟩ := h.answer_fork hfork session hb
      exact ⟨frames, fun _ => fun choice id => hframes choice id⟩
  · exact ⟨[], fun hf => absurd ⟨_, hf⟩ hany⟩

theorem Comparable.answers (h : Comparable K mine theirs) : ∃ reply, Answers K mine theirs reply := by
  choose reply hreply using h.answered
  exact ⟨reply, fun hf => hreply _ hf⟩

theorem Comparable.feed_direct (h : Comparable K mine theirs) (hfork : forkPoint K mine theirs = some (mine.length - 1))
    {reply : P2PFrame → List P2PFrame} (hreply : Answers K mine theirs reply) {node : Node K}
    (hload : node.storage.load K = .ok theirs) (choice : Node.Choice K) (id : UInt64) {session : P2PSyncSessionId} :
    (wantedFrames K session mine theirs).flatMap reply = (requests (offered K mine theirs)).map blocksFrameOf := by
  have hwanted : wantedFrames K session mine theirs = (requests (offered K mine theirs)).map (getBlocksFrame K) := by
    rw [wantedFrames, if_pos hfork]
  rw [hwanted, List.flatMap_map, List.map_eq_flatMap]
  refine List.flatMap_congr fun batch hb => ?_
  have hone := hreply (hwanted ▸ List.mem_map_of_mem hb : getBlocksFrame K batch ∈ _) choice id hload
  rw [h.answer_direct hfork hb choice id hload] at hone
  exact (congrArg Outcome.sent hone).symm

theorem Comparable.feed_fork (h : Comparable K mine theirs) {i : Nat} {ancestor : Block} (ho : Offer K mine theirs i ancestor)
    (hi : i ≠ mine.length - 1) {reply : P2PFrame → List P2PFrame} (hreply : Answers K mine theirs reply) {node : Node K}
    (hload : node.storage.load K = .ok theirs) (choice : Node.Choice K) (id : UInt64) (session : P2PSyncSessionId) :
    ∃ parts : List (List Block),
      (wantedFrames K session mine theirs).flatMap reply = parts.map (syncBlocksFrameOf session) ∧
      parts.flatten = offered K mine theirs ∧ ∀ part ∈ parts, (part ≠ [] ∧ part.length ≤ maxBatch) ∧
        ∀ b ∈ part, b.Fits decodeLimit ∧ b.bytes.length ≤ czrP2PMaxPayload := by
  have hwanted : wantedFrames K session mine theirs =
      (requests (offered K mine theirs)).map (getSyncBlocksFrame K session) := by
    rw [wantedFrames, if_neg fun he => hi (Option.some.inj (ho.fork.symm.trans he))]
  obtain ⟨parts, hserved, hflat, hparts⟩ := ho.served hload h.shared (h.compactTheirs.fitting h.loadsTheirs session mine) hi
  refine ⟨parts, ?_, hflat, hparts⟩
  have hall := readFrames_replies fun frame (hf : frame ∈ wantedFrames K session mine theirs) => hreply hf choice id hload
  rw [List.map_id', hwanted, hserved] at hall
  rw [hwanted]
  exact (congrArg Outcome.sent hall).symm

/-! ## Reading the blocks -/

/-- What a reader does with a frame: it goes on, or it throws at the last one there is and ends. -/
def Reads (choice : Node.Choice K) (peer : UInt64) (frame : P2PFrame) (inbox : List P2PFrame) (node : Node K) (after : Side K)
    (sent : List P2PFrame) : Prop :=
  frame.type ≠ .transaction ∧
    (after.listening = true ∧ node.handleFrame choice peer frame = ⟨.ok (), after.node, sent⟩ ∨
      after.listening = false ∧ inbox = [] ∧
        ∃ e : Error, e.mentionsTimeout = false ∧ node.handleFrame choice peer frame = ⟨.error e, after.node, sent⟩)

def KeepsWork (mine theirs : List Block) (node : Node K) : Prop :=
  ∃ chain, node.storage = some chain ∧ (chain = mine ∨ work mine < work chain ∧ chain <+: theirs)

theorem KeepsWork.own {node : Node K} (hload : node.storage.load K = .ok mine) : KeepsWork mine theirs node :=
  ⟨mine, (load_ok.mp hload).1, Or.inl rfl⟩

/-- The node has decided, and its reader has ended if it was offered blocks for nothing. -/
structure Done (mine theirs : List Block) (side : Side K) : Prop where
  storage : side.node.storage = some (settled K mine theirs)
  listening : side.listening = true ↔ offered K mine theirs = [] ∨ work mine < work (offeredChain K mine theirs)

def Takes (mine theirs : List Block) (peer : UInt64) : List P2PFrame → Node K → Prop
  | [], node => Done mine theirs ⟨node, true⟩
  | frame :: rest, node => KeepsWork mine theirs node ∧ ∀ choice, ∃ after, Reads choice peer frame rest node after [] ∧
      (after.listening = true → Takes mine theirs peer rest after.node) ∧ (after.listening = false → Done mine theirs after)

variable {peer : UInt64}

theorem takes_blocks (hmore : work mine < work (offeredChain K mine theirs)) (hbegins : offeredChain K mine theirs <+: theirs)
    (hall : Loadable K (offeredChain K mine theirs)) : ∀ {batches : List (List Block)} {node : Node K} {chain : List Block},
    node.storage.load K = .ok chain → (chain = mine ∨ work mine < work chain) →
    chain ++ batches.flatten = offeredChain K mine theirs →
    (∀ batch ∈ batches, (batch ≠ [] ∧ batch.length ≤ maxBatch) ∧ ∀ block ∈ batch, block.bytes.length ≤ czrP2PMaxPayload) →
    Takes mine theirs peer (batches.map blocksFrameOf) node
  | [], node, chain, hload, _, hchain, _ => by
    rw [List.flatten_nil, List.append_nil] at hchain
    refine ⟨?_, iff_of_true rfl (Or.inr hmore)⟩
    rw [settled, if_pos hmore, ← hchain]
    exact (load_ok.mp hload).1
  | batch :: batches, node, chain, hload, hown, hchain, hsize => by
    obtain ⟨hstore, hl⟩ := load_ok.mp hload
    obtain ⟨u, t, hr⟩ := hl.replay
    rw [List.forall_mem_cons] at hsize
    obtain ⟨⟨⟨hne, hlen⟩, hsmall⟩, hrest⟩ := hsize
    rw [List.flatten_cons, ← List.append_assoc] at hchain
    have hnext : Loadable K (chain ++ batch) := by
      rw [← hchain] at hall
      exact hall.of_append (by simp [hr.ne_nil])
    have hpart : chain <+: offeredChain K mine theirs := by
      rw [← hchain, List.append_assoc]
      exact List.prefix_append _ _
    have hwork : work mine < work (chain ++ batch) := by
      have := work_pos hne
      rw [work_append]
      rcases hown with rfl | hown
      · omega
      · omega
    refine ⟨⟨chain, hstore, hown.imp_right fun h => ⟨h, hpart.trans hbegins⟩⟩, fun choice => ?_⟩
    refine ⟨⟨{ node with storage := some (chain ++ batch) }, true⟩, ⟨by simp [blocksFrameOf], Or.inl ⟨rfl, ?_⟩⟩, fun _ => ?_, by simp⟩
    · show Outcome.silent (node.handleBlocks (blocksFrameOf batch).payload) = _
      rw [handleBlocks_eq hload hne hlen hnext hsmall]
      rfl
    · exact takes_blocks hmore hbegins hall (load_ok.mpr ⟨rfl, hnext⟩) (Or.inr hwork) hchain hrest

theorem rejected_ends : (Error.runtimeError "sync candidate was rejected").mentionsTimeout = false := by
  have hone : ("sync candidate was rejected".splitOn "TCP receive timeout").length = 1 :=
    Text.splitOn_of_lacks (by decide) (show Text.lacks _ _ 28 0 = true by decide +kernel)
  show decide (("sync candidate was rejected".splitOn "TCP receive timeout").length > 1) = false
  rw [hone]
  rfl

theorem takes_parts {i : Nat} {ancestor : Block} (h : Offer K mine theirs i ancestor) (hc : Comparable K mine theirs)
    (hne : offered K mine theirs ≠ []) {session : P2PSyncSessionId} :
    ∀ {parts : List (List Block)} {done : List Block} {node : Node K}, parts ≠ [] →
      offered K mine theirs = done ++ parts.flatten →
      (∀ part ∈ parts, (part ≠ [] ∧ part.length ≤ maxBatch) ∧
        ∀ block ∈ part, block.Fits decodeLimit ∧ block.bytes.length ≤ czrP2PMaxPayload) →
      node.pendingChainSyncs peer = some (progress session (offered K mine theirs) done parts.flatten.length) →
      node.storage.load K = .ok mine → node.running = true →
      Takes mine theirs peer (parts.map (syncBlocksFrameOf session)) node
  | [], _, _, hparts, _, _, _, _, _ => absurd rfl hparts
  | [part], done, node, _, hall, hpart, hpending, hload, hrun => by
    obtain ⟨⟨hpne, hlen⟩, hfits⟩ := hpart part (by simp)
    rw [List.flatten_singleton] at hall hpending
    refine ⟨.own hload, fun choice => ?_⟩
    have hlast : node.handleSyncBlocks choice.walk peer (syncBlocksFrameOf session part).payload = _ :=
      handleSyncBlocks_last (h.hashes_nodup hc.loadsTheirs hc.shared) hall hpne hlen hfits hpending
    rw [h.completed hload hc.loadsTheirs hc.shared hrun hne] at hlast
    by_cases hmore : work mine < work (offeredChain K mine theirs)
    · rw [if_pos hmore] at hlast
      refine ⟨⟨_, true⟩, ⟨by simp [syncBlocksFrameOf], Or.inl ⟨rfl, congrArg Outcome.silent hlast⟩⟩, fun _ => ⟨?_, ?_⟩, by simp⟩
      · rw [settled, if_pos hmore]
        rfl
      · exact iff_of_true rfl (Or.inr hmore)
    · rw [if_neg hmore] at hlast
      refine ⟨⟨_, false⟩, ⟨by simp [syncBlocksFrameOf], Or.inr ⟨rfl, rfl, _, ?_, congrArg Outcome.silent hlast⟩⟩, by simp,
        fun _ => ⟨?_, ?_⟩⟩
      · exact rejected_ends
      · rw [settled, if_neg hmore]
        exact (load_ok.mp hload).1
      · exact iff_of_false (by simp) (by simp [hne, hmore])
  | part :: next :: parts, done, node, _, hall, hpart, hpending, hload, hrun => by
    rw [List.forall_mem_cons] at hpart
    obtain ⟨⟨⟨hpne, hlen⟩, hfits⟩, hparts⟩ := hpart
    have hrest : (next :: parts).flatten ≠ [] := by
      simp [(hparts next (by simp)).1.1]
    rw [List.flatten_cons, ← List.append_assoc] at hall
    rw [List.flatten_cons, List.length_append] at hpending
    refine ⟨.own hload, fun choice => ?_⟩
    have hmore : node.handleSyncBlocks choice.walk peer (syncBlocksFrameOf session part).payload = _ :=
      handleSyncBlocks_more (h.hashes_nodup hc.loadsTheirs hc.shared) hall hpne hlen hfits hrest hpending
    refine ⟨⟨_, true⟩, ⟨by simp [syncBlocksFrameOf], Or.inl ⟨rfl, congrArg Outcome.silent hmore⟩⟩, fun _ => ?_, by simp⟩
    exact takes_parts h hc hne (List.cons_ne_nil next parts) hall hparts (by simp [Node.setPending]) hload hrun

theorem work_begins {chain chain' : List Block} (h : chain <+: chain') : work chain ≤ work chain' := by
  obtain ⟨rest, rfl⟩ := h
  rw [work_append]
  exact Nat.le_add_right _ _

theorem offeredChain_begins (mine theirs : List Block) : offeredChain K mine theirs <+: theirs := by
  unfold offeredChain
  split
  · exact List.nil_prefix
  · exact List.take_prefix _ _

theorem wantedFrames_nil (session : P2PSyncSessionId) (hnone : offered K mine theirs = []) :
    wantedFrames K session mine theirs = [] := by
  rw [wantedFrames, hnone]
  rfl

theorem Comparable.settled_none (h : Comparable K mine theirs) (hnone : offered K mine theirs = []) :
    settled K mine theirs = mine := by
  obtain ⟨u, t, hr⟩ := h.loadsMine.replay
  obtain ⟨u', t', hr'⟩ := h.loadsTheirs.replay
  refine if_neg (Nat.not_lt.mpr ?_)
  cases hi : forkPoint K mine theirs with
  | none => simp [offeredChain, hi, work]
  | some i =>
    obtain ⟨_, _, _, hagree⟩ := h.shared.forkPoint_some hr hr' hi
    rw [offeredChain_eq hi, hnone, List.append_nil, ← hagree]
    exact work_begins (List.take_prefix _ _)

theorem Idle.asks {node : Node K} (h : Idle peer mine node) (hc : Comparable K mine theirs) {reply : P2PFrame → List P2PFrame}
    (hreply : Answers K mine theirs reply) (choice : Node.Choice K) : ∃ opened : Node K,
      node.handleFrame choice peer (offerFrame K mine theirs) =
        ⟨.ok (), opened, wantedFrames K choice.sessionId mine theirs⟩ ∧
      opened.storage.load K = .ok mine ∧
      Takes mine theirs peer ((wantedFrames K choice.sessionId mine theirs).flatMap reply) opened := by
  obtain ⟨hstore, -⟩ := load_ok.mp h.load
  by_cases hne : offered K mine theirs = []
  · have hwanted := wantedFrames_nil choice.sessionId hne
    refine ⟨node, ?_, h.load, ?_⟩
    · show node.handleHeaders peer choice.sessionId _ = _
      rw [offerFrame, hne, hwanted]
      exact handleHeaders_none receiveHeaders_nil
    · rw [hwanted]
      exact ⟨by rw [hc.settled_none hne]; exact hstore, iff_of_true rfl (Or.inl hne)⟩
  · obtain ⟨i, ancestor, ho⟩ := hc.shared.offer hc.loadsMine hc.loadsTheirs hne
    have hreceived := ho.received h.load hc.loadsTheirs hc.shared hne
    -- any node with the other chain will do to see what is answered
    have hother : ({ node with storage := some theirs } : Node K).storage.load K = .ok theirs :=
      load_ok.mpr ⟨rfl, hc.loadsTheirs⟩
    by_cases hi : i = mine.length - 1
    · have hfork : forkPoint K mine theirs = some (mine.length - 1) := hi ▸ ho.fork
      rw [decide_eq_true hi] at hreceived
      refine ⟨node, ?_, h.load, ?_⟩
      · rw [wantedFrames, if_pos hfork]
        exact handleHeaders_direct hreceived
      · have hlt := (List.getElem?_eq_some_iff.mp ho.here).1
        have hchain : offeredChain K mine theirs = mine ++ offered K mine theirs := by
          rw [ho.chain_eq, List.take_of_length_le (by omega)]
        have hmore : work mine < work (offeredChain K mine theirs) := by
          have := work_pos hne
          rw [hchain, work_append]
          omega
        rw [hc.feed_direct hfork hreply hother choice peer]
        refine takes_blocks hmore (offeredChain_begins mine theirs) (ho.loadable hc.loadsTheirs) h.load (Or.inl rfl)
          (by rw [requests_flatten, hchain]) fun batch hb => ⟨requests_mem hb, fun b hbb => ?_⟩
        have h₁ := length_le_blockList hbb
        have h₂ := (hc.compactTheirs.fitting hc.loadsTheirs choice.sessionId mine).direct hfork batch hb
        omega
    · have hfork : forkPoint K mine theirs ≠ some (mine.length - 1) :=
        fun he => hi (Option.some.inj (ho.fork.symm.trans he))
      obtain ⟨parts, hfeed, hflat, hparts⟩ := hc.feed_fork ho hi hreply hother choice peer choice.sessionId
      have hpne : parts ≠ [] := by
        rintro rfl
        exact hne hflat.symm
      rw [decide_eq_false hi] at hreceived
      refine ⟨node.setPending peer (some ⟨choice.sessionId, (offered K mine theirs).map Block.header,
        (offered K mine theirs).map fun _ => none⟩), ?_, ?_, ?_⟩
      · rw [wantedFrames, if_neg hfork]
        exact handleHeaders_fork hreceived h.pending
      · exact h.load
      · rw [hfeed]
        refine takes_parts ho hc hne hpne (by rw [hflat]; exact (List.nil_append _).symm) hparts ?_ h.load h.running
        simp [Node.setPending, progress, hflat, List.map_const']

/-! ## The part of each node -/

/-- Where a node stands after its own question was answered: it has heard `heard`, of which the first `serve` frames are
requests, and the frames `feed` are what it has asked for. -/
structure Attends (mine theirs : List Block) (peer : UInt64) (serve : Nat) (feed heard : List P2PFrame) (side : Side K) :
    Prop where
  serving : heard.length < serve → side.node.storage.load K = .ok mine
  takes : side.listening = true → Takes mine theirs peer (feed.drop (heard.length - serve)) side.node
  ended : side.listening = false → heard.length = serve + feed.length ∧ Done mine theirs side

/-- What a node has heard and said since the connection was made. -/
inductive Plays (mine theirs : List Block) (peer : UInt64) (reply theirReply : P2PFrame → List P2PFrame) : Part (Side K) P2PFrame
  | asked {node : Node K} : Idle peer mine node → Plays mine theirs peer reply theirReply [] [locatorsFrame K mine] ⟨node, true⟩
  | answered {node : Node K} : Idle peer mine node → Plays mine theirs peer reply theirReply [locatorsFrame K theirs]
      [locatorsFrame K mine, offerFrame K theirs mine] ⟨node, true⟩
  | attends {session : P2PSyncSessionId} {heard : List P2PFrame} {side : Side K} :
      Attends mine theirs peer (requests (offered K theirs mine)).length
        ((wantedFrames K session mine theirs).flatMap theirReply) heard side →
      Plays mine theirs peer reply theirReply (locatorsFrame K theirs :: offerFrame K mine theirs :: heard)
        (locatorsFrame K mine :: offerFrame K theirs mine :: (wantedFrames K session mine theirs ++
          (heard.take (requests (offered K theirs mine)).length).flatMap reply)) side

variable {reply theirReply : P2PFrame → List P2PFrame} {heard said heard' said' : List P2PFrame} {side other : Side K}

def speech (K : Crypto) (mine theirs : List Block) (theirReply : P2PFrame → List P2PFrame) (session theirSession : P2PSyncSessionId) :
    List P2PFrame :=
  locatorsFrame K theirs :: offerFrame K mine theirs :: (wantedFrames K theirSession theirs mine ++
    (wantedFrames K session mine theirs).flatMap theirReply)

theorem Plays.speech_of {peer' : UInt64} {reply' : P2PFrame → List P2PFrame}
    (h : Plays theirs mine peer' theirReply reply' heard' said' other) {session : P2PSyncSessionId} {tail : List P2PFrame}
    (hheard : heard' <+: locatorsFrame K mine :: offerFrame K theirs mine :: (wantedFrames K session mine theirs ++ tail)) :
    ∃ theirSession, said' <+: speech K mine theirs theirReply session theirSession := by
  cases h with
  | asked => exact ⟨session, List.prefix_append [_] _⟩
  | answered => exact ⟨session, List.prefix_append [_, _] _⟩
  | attends ha =>
    rename_i theirSession heard'
    refine ⟨theirSession, ?_⟩
    rw [List.cons_prefix_cons, List.cons_prefix_cons] at hheard
    have hrequests : heard'.take (requests (offered K mine theirs)).length <+: wantedFrames K session mine theirs := by
      have htake := hheard.2.2.take (requests (offered K mine theirs)).length
      rwa [← wantedFrames_length session, List.take_left, wantedFrames_length] at htake
    unfold speech
    rw [List.cons_prefix_cons, List.cons_prefix_cons, List.prefix_append_right_inj]
    exact ⟨rfl, rfl, hrequests.flatMap _⟩

theorem offered_type (mine theirs : List Block) : (offerFrame K mine theirs).type ≠ .transaction := by
  simp [offerFrame, Node.headersFrame]

theorem Idle.answers {node : Node K} (h : Idle peer mine node) (theirs : List Block) (hne : theirs ≠ [])
    (choice : Node.Choice K) : node.handleFrame choice peer (locatorsFrame K theirs) =
      ⟨.ok (), node, [offerFrame K theirs mine]⟩ := by
  rw [offerFrame, ← headersAfter_eq]
  exact handleGetHeaders_eq h.load (headerLocators_ne_nil hne) (headerLocators_length theirs)

theorem Attends.hear {session theirSession : P2PSyncSessionId} {frame : P2PFrame} {inbox : List P2PFrame}
    (h : Attends mine theirs peer (requests (offered K theirs mine)).length
      ((wantedFrames K session mine theirs).flatMap theirReply) heard side)
    (hreply : Answers K theirs mine reply) (hlistening : side.listening = true)
    (hsaid : heard ++ frame :: inbox <+: wantedFrames K theirSession theirs mine ++
      (wantedFrames K session mine theirs).flatMap theirReply) (choice : Node.Choice K) :
    ∃ next out, Reads choice peer frame inbox side.node next out ∧
      Attends mine theirs peer (requests (offered K theirs mine)).length
        ((wantedFrames K session mine theirs).flatMap theirReply) (heard ++ [frame]) next ∧
      (heard.take (requests (offered K theirs mine)).length).flatMap reply ++ out =
        ((heard ++ [frame]).take (requests (offered K theirs mine)).length).flatMap reply := by
  rw [← wantedFrames_length theirSession] at h ⊢
  by_cases hlt : heard.length < (wantedFrames K theirSession theirs mine).length
  · -- a request of the other node
    have hframe : frame ∈ wantedFrames K theirSession theirs mine := by
      obtain ⟨later, hlater⟩ := hsaid
      have hget := congrArg (fun l => l[heard.length]?) hlater
      simp only [List.append_assoc, List.cons_append, List.getElem?_append_right (Nat.le_refl _), Nat.sub_self,
        List.getElem?_cons_zero, List.getElem?_append_left hlt] at hget
      exact List.mem_of_getElem? hget.symm
    refine ⟨side, reply frame, ⟨wanted_type hframe, Or.inl ⟨hlistening, ?_⟩⟩, ⟨fun _ => h.serving hlt, fun _ => ?_, ?_⟩, ?_⟩
    · exact hreply hframe choice peer (h.serving hlt)
    · have htakes := h.takes hlistening
      rw [List.length_append, List.length_singleton, Nat.sub_eq_zero_of_le hlt]
      rwa [Nat.sub_eq_zero_of_le (Nat.le_of_lt hlt)] at htakes
    · simp [hlistening]
    · rw [List.take_of_length_le (Nat.le_of_lt hlt), List.take_of_length_le (by simpa using Nat.succ_le_of_lt hlt)]
      simp
  · -- what the node has asked for
    obtain ⟨later, hlater⟩ := hsaid
    have hfeed : ((wantedFrames K session mine theirs).flatMap theirReply).drop
        (heard.length - (wantedFrames K theirSession theirs mine).length) = frame :: (inbox ++ later) := by
      have hdrop := congrArg (List.drop heard.length) hlater
      rw [List.append_assoc, List.drop_left, List.drop_append, List.drop_eq_nil_of_le (Nat.le_of_not_lt hlt)] at hdrop
      exact hdrop.symm
    have htakes := h.takes hlistening
    rw [hfeed] at htakes
    obtain ⟨next, ⟨htype, hread⟩, hgoes, hends⟩ := htakes.2 choice
    have hlen : (heard ++ [frame]).length - (wantedFrames K theirSession theirs mine).length =
        heard.length - (wantedFrames K theirSession theirs mine).length + 1 := by
      rw [List.length_append, List.length_singleton]
      omega
    refine ⟨next, [], ⟨htype, ?_⟩, ⟨fun hless => ?_, fun hl => ?_, fun hl => ⟨?_, hends hl⟩⟩, ?_⟩
    · refine hread.imp_right fun ⟨hl, hnone, hthrows⟩ => ⟨hl, (List.append_eq_nil_iff.mp hnone).1, hthrows⟩
    · rw [List.length_append, List.length_singleton] at hless
      omega
    · rw [hlen, ← List.drop_drop, hfeed]
      exact hgoes hl
    · rcases hread with ⟨hl', -⟩ | ⟨-, hnone, -⟩
      · rw [hl] at hl'
        cases hl'
      · have hcount := congrArg List.length hfeed
        rw [hnone, List.length_drop, List.length_singleton] at hcount
        rw [List.length_append, List.length_singleton]
        omega
    · rw [List.take_append_of_le_length (Nat.le_of_not_lt hlt), List.append_nil]

theorem Plays.hear {peer' : UInt64} {frame : P2PFrame} {inbox : List P2PFrame} (hc : Comparable K mine theirs)
    (hreply : Answers K theirs mine reply) (htheirs : Answers K mine theirs theirReply)
    (h : Plays mine theirs peer reply theirReply heard said side) (hlistening : side.listening = true)
    (hother : Plays theirs mine peer' theirReply reply heard' said' other) (hheard : heard' <+: said)
    (hsaid : said' = heard ++ frame :: inbox) (choice : Node.Choice K) :
    ∃ next out, Reads choice peer frame inbox side.node next out ∧
      Plays mine theirs peer reply theirReply (heard ++ [frame]) (said ++ out) next := by
  obtain ⟨u, t, hr⟩ := hc.loadsTheirs.replay
  cases h with
  | asked hidle =>
    have hbegins : heard' <+: locatorsFrame K mine :: offerFrame K theirs mine ::
        (wantedFrames K choice.sessionId mine theirs ++ []) := hheard.trans (List.prefix_append [_] _)
    obtain ⟨theirSession, hspeech⟩ := hother.speech_of hbegins
    rw [hsaid, List.nil_append, speech, List.cons_prefix_cons] at hspeech
    obtain ⟨rfl, -⟩ := hspeech
    exact ⟨_, _, ⟨by simp [locatorsFrame], Or.inl ⟨rfl, hidle.answers theirs hr.ne_nil choice⟩⟩, .answered hidle⟩
  | answered hidle =>
    have hbegins : heard' <+: locatorsFrame K mine :: offerFrame K theirs mine ::
        (wantedFrames K choice.sessionId mine theirs ++ []) := hheard.trans (List.prefix_append [_, _] _)
    obtain ⟨theirSession, hspeech⟩ := hother.speech_of hbegins
    rw [hsaid, List.singleton_append, speech, List.cons_prefix_cons, List.cons_prefix_cons] at hspeech
    obtain ⟨-, rfl, -⟩ := hspeech
    obtain ⟨opened, hasks, hload, htakes⟩ := hidle.asks hc htheirs choice
    refine ⟨⟨opened, true⟩, _, ⟨offered_type mine theirs, Or.inl ⟨rfl, hasks⟩⟩, ?_⟩
    have hattends : Attends mine theirs peer (requests (offered K theirs mine)).length
        ((wantedFrames K choice.sessionId mine theirs).flatMap theirReply) [] ⟨opened, true⟩ :=
      ⟨fun _ => hload, fun _ => by rw [List.length_nil, Nat.zero_sub]; exact htakes, by simp⟩
    have hplays : Plays mine theirs peer reply theirReply _ _ _ := .attends hattends
    rwa [List.take_nil, List.flatMap_nil, List.append_nil] at hplays
  | attends hattends =>
    rename_i session heard
    obtain ⟨theirSession, hspeech⟩ := hother.speech_of hheard
    rw [hsaid, List.cons_append, List.cons_append, speech, List.cons_prefix_cons, List.cons_prefix_cons] at hspeech
    obtain ⟨next, out, hreads, hnext, hout⟩ := hattends.hear hreply hlistening hspeech.2.2 choice
    refine ⟨next, out, hreads, ?_⟩
    have hplays : Plays mine theirs peer reply theirReply _ _ _ := .attends hnext
    rw [← hout] at hplays
    simpa using hplays

theorem Done.keeps (h : Done mine theirs side) : KeepsWork mine theirs side.node := by
  refine ⟨_, h.storage, ?_⟩
  unfold settled
  split
  · rename_i hmore
    exact Or.inr ⟨hmore, offeredChain_begins mine theirs⟩
  · exact Or.inl rfl

theorem Plays.keeps (h : Plays mine theirs peer reply theirReply heard said side) : KeepsWork mine theirs side.node := by
  cases h with
  | asked hidle => exact .own hidle.load
  | answered hidle => exact .own hidle.load
  | attends ha =>
    by_cases hl : side.listening = true
    · have htakes := ha.takes hl
      revert htakes
      cases List.drop _ _ with
      | nil =>
        intro hdone
        have hdone : Done mine theirs ⟨side.node, true⟩ := hdone
        exact hdone.keeps
      | cons frame rest => exact fun htakes => htakes.1
    · exact (ha.ended (Bool.eq_false_iff.mpr hl)).2.keeps

theorem Plays.done {peer' : UInt64} (h : Plays mine theirs peer reply theirReply heard said side)
    (hother : Plays theirs mine peer' theirReply reply heard' said' other) (hheard : heard = said') (hheard' : heard' = said) :
    Done mine theirs side := by
  cases h with
  | asked =>
    cases hother with
    | asked => simp at hheard
    | answered => simp at hheard
    | attends => simp at hheard
  | answered =>
    cases hother with
    | asked => simp at hheard'
    | answered => simp at hheard'
    | attends => simp at hheard
  | attends ha =>
    cases hother with
    | asked => simp at hheard'
    | answered => simp at hheard'
    | attends hb =>
      rename_i session heard theirSession heard'
      simp only [List.cons.injEq, true_and] at hheard hheard'
      have hrequests : heard'.take (requests (offered K mine theirs)).length = wantedFrames K session mine theirs := by
        rw [hheard', ← wantedFrames_length session, List.take_left]
      have hlen := congrArg List.length hheard
      rw [hrequests, List.length_append, wantedFrames_length] at hlen
      by_cases hl : side.listening = true
      · have htakes := ha.takes hl
        rw [hlen, Nat.add_sub_cancel_left, List.drop_length] at htakes
        obtain ⟨node, listening⟩ := side
        cases hl
        exact htakes
      · exact (ha.ended (Bool.eq_false_iff.mpr hl)).2

theorem Plays.ended {peer' : UInt64} {frame : P2PFrame} {inbox : List P2PFrame}
    (h : Plays mine theirs peer reply theirReply heard said side)
    (hother : Plays theirs mine peer' theirReply reply heard' said' other) (hheard : heard' <+: said)
    (hsaid : said' = heard ++ frame :: inbox) : side.listening = true := by
  cases h with
  | asked => rfl
  | answered => rfl
  | attends ha =>
    rename_i session heard
    by_contra hl
    obtain ⟨theirSession, hspeech⟩ := hother.speech_of hheard
    rw [hsaid, List.cons_append, List.cons_append, speech, List.cons_prefix_cons, List.cons_prefix_cons] at hspeech
    have hle := hspeech.2.2.length_le
    have hend := (ha.ended (Bool.eq_false_iff.mpr hl)).1
    rw [List.length_append, List.length_append, List.length_cons, wantedFrames_length] at hle
    omega

/-! ## How much is said -/

theorem length_le_flatten {α : Type} : ∀ {parts : List (List α)}, (∀ part ∈ parts, part ≠ []) →
    parts.length ≤ parts.flatten.length
  | [], _ => Nat.le_refl _
  | part :: parts, h => by
    rw [List.forall_mem_cons] at h
    have hpart := List.length_pos_of_ne_nil h.1
    have hrest := length_le_flatten h.2
    rw [List.flatten_cons, List.length_append, List.length_cons]
    omega

theorem wantedFrames_le (session : P2PSyncSessionId) (mine theirs : List Block) :
    (wantedFrames K session mine theirs).length ≤ (offered K mine theirs).length := by
  have hle := length_le_flatten fun batch (hb : batch ∈ requests (offered K mine theirs)) => (requests_mem hb).1
  rw [requests_flatten] at hle
  rwa [wantedFrames_length]

theorem Comparable.feed_le (h : Comparable K mine theirs) (hreply : Answers K mine theirs reply) {node : Node K}
    (hload : node.storage.load K = .ok theirs) (choice : Node.Choice K) (id : UInt64) (session : P2PSyncSessionId) :
    ((wantedFrames K session mine theirs).flatMap reply).length ≤ (offered K mine theirs).length := by
  by_cases hne : offered K mine theirs = []
  · simp [wantedFrames_nil session hne]
  · obtain ⟨i, ancestor, ho⟩ := h.shared.offer h.loadsMine h.loadsTheirs hne
    by_cases hi : i = mine.length - 1
    · rw [h.feed_direct (hi ▸ ho.fork) hreply hload choice id, List.length_map, ← wantedFrames_length session]
      exact wantedFrames_le session mine theirs
    · obtain ⟨parts, hfeed, hflat, hparts⟩ := h.feed_fork ho hi hreply hload choice id session
      rw [hfeed, List.length_map, ← hflat]
      exact length_le_flatten fun part hp => (hparts part hp).1.1

theorem Plays.said_le {peer' : UInt64} (hc : Comparable K mine theirs) (hreply : Answers K mine theirs theirReply)
    (h : Plays mine theirs peer reply theirReply heard said side)
    (hother : Plays theirs mine peer' theirReply reply heard' said' other) (hheard : heard' <+: said) (choice : Node.Choice K) :
    said'.length ≤ 2 + ((offered K theirs mine).length + (offered K mine theirs).length) := by
  have hbegins : ∃ session tail, said <+: locatorsFrame K mine :: offerFrame K theirs mine ::
      (wantedFrames K session mine theirs ++ tail) := by
    cases h with
    | asked => exact ⟨choice.sessionId, [], List.prefix_append [_] _⟩
    | answered => exact ⟨choice.sessionId, [], List.prefix_append [_, _] _⟩
    | attends => exact ⟨_, _, List.prefix_refl _⟩
  obtain ⟨session, tail, hbegins⟩ := hbegins
  obtain ⟨theirSession, hspeech⟩ := hother.speech_of (hheard.trans hbegins)
  have hle := hspeech.length_le
  have hload : ({ side.node with storage := some theirs } : Node K).storage.load K = .ok theirs :=
    load_ok.mpr ⟨rfl, hc.loadsTheirs⟩
  have hfeed := hc.feed_le hreply hload choice peer session
  have hwanted := wantedFrames_le (K := K) theirSession theirs mine
  rw [speech, List.length_cons, List.length_cons, List.length_append] at hle
  omega

end

/-! ## The readers -/

section
variable {K : Crypto} {N : Type} [DecidableEq N] {mesh : Mesh K N} {a b : N}

namespace Mesh

def side (mesh : Mesh K N) (n peer : N) : Side K := ⟨mesh.node n, decide (peer ∈ mesh.peers n)⟩

theorem gossip_alone (h : ∀ peer ∈ mesh.peers a, peer = b) (block : Block) : mesh.gossip a b block = mesh := by
  unfold gossip
  cases makeBlocksFrame block with
  | error e => rfl
  | ok frame =>
    have hnone : ∀ peers : List N, (∀ peer ∈ peers, peer = b) → mesh.broadcastExcept a b frame peers = mesh := by
      intro peers
      induction peers with
      | nil => exact fun _ => rfl
      | cons peer rest ih =>
        intro hall
        rw [List.forall_mem_cons] at hall
        rw [broadcastExcept, if_pos hall.1]
        exact ih hall.2
    exact hnone _ h

theorem foldl_gossip_alone (h : ∀ peer ∈ mesh.peers a, peer = b) (blocks : List Block) :
    blocks.foldl (fun mesh block => mesh.gossip a b block) mesh = mesh := by
  induction blocks with
  | nil => rfl
  | cons block blocks ih =>
    rw [List.foldl_cons, gossip_alone h]
    exact ih

theorem handleFrame_alone (h : ∀ peer ∈ mesh.peers a, peer = b) (choice : Node.Choice K) {frame : P2PFrame}
    (htype : frame.type ≠ .transaction) {result : Result Unit} {next : Node K} {sent : List P2PFrame}
    (hnode : (mesh.node a).handleFrame choice (mesh.ids a b) frame = ⟨result, next, sent⟩) :
    mesh.handleFrame choice b a frame =
      (result, sent.foldl (fun mesh frame => mesh.put a b frame) (mesh.setNode a next)) := by
  unfold handleFrame
  split
  · rename_i hblocks
    have hhandled : (mesh.node a).handleBlocks frame.payload = (result, next) ∧ sent = [] := by
      rw [Node.handleFrame, hblocks] at hnode
      simp only [Outcome.silent, Outcome.mk.injEq] at hnode
      exact ⟨Prod.ext hnode.1 hnode.2.1, hnode.2.2.symm⟩
    unfold handleBlocks
    rw [hhandled.1, hhandled.2]
    dsimp only
    cases result with
    | error e => rfl
    | ok _ =>
      have halone : ∀ peer ∈ (mesh.setNode a next).peers a, peer = b := h
      exact congrArg _ (foldl_gossip_alone halone _)
  · rename_i htransaction
    exact absurd htransaction htype
  · rw [hnode]

theorem foldl_put (src dst : N) : ∀ (sent : List P2PFrame) (mesh : Mesh K N),
    sent.foldl (fun mesh frame => mesh.put src dst frame) mesh = { mesh with
      wires := Function.update mesh.wires src (Function.update (mesh.wires src) dst (mesh.wires src dst ++ sent)) }
  | [], mesh => by simp
  | frame :: sent, mesh => by
    rw [List.foldl_cons, foldl_put src dst sent]
    simp [put, Wires.put]

theorem read_of_error {choice : Node.Choice K} {src dst : N} {frame : P2PFrame} {inbox : List P2PFrame} {after : Mesh K N}
    {e : Error} (hpeer : src ∈ mesh.peers dst) (hw : mesh.wires src dst = frame :: inbox) (he : e.mentionsTimeout = false)
    (hh : ({ mesh with wires := mesh.wires.receive src dst } : Mesh K N).handleFrame choice src dst frame =
      (.error e, after)) : mesh.read choice src dst = after.hangUp src dst := by
  rw [read, if_pos hpeer, hw]
  dsimp only
  rw [hh]
  dsimp only
  rw [if_neg (by simp [he])]

theorem read_alone (hab : a ≠ b) (h : ∀ peer ∈ mesh.peers a, peer = b) {frame : P2PFrame} {inbox : List P2PFrame}
    (hpeer : b ∈ mesh.peers a) (hw : mesh.wires b a = frame :: inbox) (choice : Node.Choice K) {after : Side K}
    {sent : List P2PFrame} (hreads : Reads choice (mesh.ids a b) frame inbox (mesh.node a) after sent) :
    (mesh.read choice b a).side a b = after ∧ (mesh.read choice b a).side b a = mesh.side b a ∧
      (mesh.read choice b a).wires b a = inbox ∧ (mesh.read choice b a).wires a b = mesh.wires a b ++ sent ∧
      (∀ peer ∈ (mesh.read choice b a).peers a, peer = b) ∧ (mesh.read choice b a).peers b = mesh.peers b ∧
      (mesh.read choice b a).ids = mesh.ids := by
  obtain ⟨htype, hcase⟩ := hreads
  have halone : ∀ peer ∈ ({ mesh with wires := mesh.wires.receive b a } : Mesh K N).peers a, peer = b := h
  obtain ⟨node, listening⟩ := after
  rcases hcase with ⟨rfl, hnode⟩ | ⟨rfl, rfl, e, htimeout, hnode⟩
  · rw [read_of_ok hpeer hw (handleFrame_alone halone choice htype hnode), foldl_put]
    refine ⟨by simp [side, setNode, hpeer], ?_, ?_, ?_, h, rfl, rfl⟩
    · simp only [side, setNode, Function.update_of_ne (Ne.symm hab)]
      rfl
    · simp [setNode, Wires.receive, Ne.symm hab, hw]
    · simp [setNode, Wires.receive, hab]
  · rw [read_of_error hpeer hw htimeout (handleFrame_alone halone choice htype hnode), foldl_put]
    refine ⟨by simp [side, setNode, hangUp], by simp [side, setNode, hangUp, Ne.symm hab], ?_, ?_, ?_, ?_, rfl⟩
    · simp [hangUp]
    · simp [setNode, hangUp, Wires.receive, hab]
    · intro peer hp
      simp only [hangUp, Function.update_self, List.mem_filter] at hp
      exact h peer hp.1
    · simp [hangUp, setNode, Ne.symm hab]

/-- Two nodes that have nobody but each other, each in its part. -/
structure Meets (mine theirs : List Block) (reply theirReply : P2PFrame → List P2PFrame) (ids : N → N → UInt64) (turns : Nat)
    (a b : N) (mesh : Mesh K N) : Prop where
  ids_eq : mesh.ids = ids
  left : ∀ peer ∈ mesh.peers a, peer = b
  right : ∀ peer ∈ mesh.peers b, peer = a
  coupled : Coupled (Plays mine theirs (ids a b) reply theirReply) (Plays theirs mine (ids b a) theirReply reply) turns
    (mesh.side a b) (mesh.side b a) (mesh.wires b a) (mesh.wires a b)

variable {mine theirs : List Block} {reply theirReply : P2PFrame → List P2PFrame} {ids : N → N → UInt64} {turns : Nat}

theorem Meets.symm (h : mesh.Meets mine theirs reply theirReply ids turns a b) :
    mesh.Meets theirs mine theirReply reply ids turns b a := ⟨h.ids_eq, h.right, h.left, h.coupled.symm⟩

theorem read_none (choice : Node.Choice K) {src dst : N} (h : mesh.wires src dst = []) : mesh.read choice src dst = mesh := by
  unfold read
  rw [h]
  split <;> rfl

theorem Meets.read (h : mesh.Meets mine theirs reply theirReply ids turns a b) (hab : a ≠ b) (hc : Comparable K mine theirs)
    (hreply : Answers K theirs mine reply) (htheirs : Answers K mine theirs theirReply) (choice : Node.Choice K)
    (hw : mesh.wires b a ≠ []) : (mesh.read choice b a).Meets mine theirs reply theirReply ids (turns + 1) a b := by
  obtain ⟨frame, inbox, hw⟩ := List.exists_cons_of_ne_nil hw
  have hcoupled := h.coupled
  rw [hw] at hcoupled
  obtain ⟨after, sent, ⟨hpeer, hreads⟩, hafter⟩ : ∃ after sent,
      (b ∈ mesh.peers a ∧ Reads choice (ids a b) frame inbox (mesh.node a) after sent) ∧ Coupled _ _ _ after _ _ _ := by
    refine hcoupled.hear fun hleft hright hheard hsaid => ?_
    have hlistening := hleft.ended hright hheard hsaid
    obtain ⟨next, out, hreads, hnext⟩ := hleft.hear hc hreply htheirs hlistening hright hheard hsaid choice
    exact ⟨next, out, ⟨of_decide_eq_true hlistening, hreads⟩, hnext⟩
  rw [← h.ids_eq] at hreads
  obtain ⟨hside, hother, hin, hout, halone, hpeers, hids⟩ := read_alone hab h.left hpeer hw choice hreads
  refine ⟨hids.trans h.ids_eq, halone, hpeers ▸ h.right, ?_⟩
  rw [hside, hother, hin, hout]
  exact hafter

def Event.Between (a b : N) : Event K N → Prop
  | .read _ src dst => src = a ∧ dst = b ∨ src = b ∧ dst = a
  | _ => False

/-- What the turn of one reader keeps, that of the other keeps: the parts are exchanged. -/
theorem Meets.turn (h : mesh.Meets mine theirs reply theirReply ids turns a b) (hab : a ≠ b) (hc : Comparable K mine theirs)
    (hreply : Answers K theirs mine reply) (htheirs : Answers K mine theirs theirReply) {choice : Node.Choice K} {src dst : N}
    (he : (Event.read choice src dst : Event K N).Between a b) (hw : mesh.wires src dst ≠ []) :
    (mesh.read choice src dst).Meets mine theirs reply theirReply ids (turns + 1) a b := by
  rcases he with ⟨rfl, rfl⟩ | ⟨rfl, rfl⟩
  · exact (h.symm.read (Ne.symm hab) hc.symm htheirs hreply choice hw).symm
  · exact h.read hab hc hreply htheirs choice hw

theorem Meets.step (h : mesh.Meets mine theirs reply theirReply ids turns a b) (hab : a ≠ b) (hc : Comparable K mine theirs)
    (hreply : Answers K theirs mine reply) (htheirs : Answers K mine theirs theirReply) {event : Event K N}
    (he : event.Between a b) : ∃ turns, (mesh.step event).Meets mine theirs reply theirReply ids turns a b := by
  cases event with
  | read choice src dst =>
    show ∃ turns, (mesh.read choice src dst).Meets mine theirs reply theirReply ids turns a b
    by_cases hw : mesh.wires src dst = []
    · rw [read_none choice hw]
      exact ⟨turns, h⟩
    · exact ⟨turns + 1, h.turn hab hc hreply htheirs he hw⟩
  | acceptTransaction => exact he.elim
  | commitMined => exact he.elim
  | submitPoolSolution => exact he.elim
  | requestHeaders => exact he.elim
  | lost => exact he.elim

theorem Meets.run (hab : a ≠ b) (hc : Comparable K mine theirs) (hreply : Answers K theirs mine reply)
    (htheirs : Answers K mine theirs theirReply) : ∀ {events : List (Event K N)} {mesh : Mesh K N} {turns : Nat},
      mesh.Meets mine theirs reply theirReply ids turns a b → (∀ event ∈ events, event.Between a b) →
      ∃ turns, (mesh.run events).Meets mine theirs reply theirReply ids turns a b
  | [], _, turns, h, _ => ⟨turns, h⟩
  | event :: events, mesh, _, h, he => by
    rw [List.forall_mem_cons] at he
    obtain ⟨turns, hstep⟩ := h.step hab hc hreply htheirs he.1
    show ∃ turns, ((mesh.step event).run events).Meets mine theirs reply theirReply ids turns a b
    exact Meets.run hab hc hreply htheirs hstep he.2

theorem Meets.delivers (hab : a ≠ b) (hc : Comparable K mine theirs) (hreply : Answers K theirs mine reply)
    (htheirs : Answers K mine theirs theirReply) : ∀ {reads : List (Node.Choice K × N × N)} {mesh : Mesh K N} {turns : Nat},
      mesh.Meets mine theirs reply theirReply ids turns a b →
      (∀ read ∈ reads, (Event.read read.1 read.2.1 read.2.2 : Event K N).Between a b) → mesh.Delivers reads →
      ∃ last : Mesh K N, last.Meets mine theirs reply theirReply ids (turns + reads.length) a b
  | [], mesh, turns, h, _, _ => ⟨mesh, h⟩
  | (choice, src, dst) :: reads, mesh, turns, h, hb, hd => by
    rw [List.forall_mem_cons] at hb
    have hnext := h.turn hab hc hreply htheirs hb.1 hd.1
    obtain ⟨last, hlast⟩ := Meets.delivers hab hc hreply htheirs hnext hb.2 hd.2
    refine ⟨last, ?_⟩
    rwa [Nat.add_assoc, Nat.add_comm 1] at hlast

theorem Meets.turns_le (h : mesh.Meets mine theirs reply theirReply ids turns a b) (hc : Comparable K mine theirs)
    (hreply : Answers K theirs mine reply) (htheirs : Answers K mine theirs theirReply) (choice : Node.Choice K) :
    turns ≤ 4 + 2 * ((offered K mine theirs).length + (offered K theirs mine).length) := by
  refine h.coupled.turns_le fun hleft hright hheard' hheard => ?_
  have h₁ := hleft.said_le hc htheirs hright hheard' choice
  have h₂ := hright.said_le hc.symm hreply hleft hheard choice
  omega

theorem requestHeaders_eq {chain : List Block} (hpeer : b ∈ mesh.peers a) (hload : (mesh.node a).storage.load K = .ok chain) :
    mesh.requestHeaders a b = mesh.put a b (locatorsFrame K chain) := by
  rw [requestHeaders, if_pos hpeer, Caesar.requestHeaders_eq hload]
  rfl

theorem Meets.start (hab : a ≠ b) (hpeers : mesh.peers a = [b]) (hpeers' : mesh.peers b = [a]) (hquiet : mesh.wires a b = [])
    (hquiet' : mesh.wires b a = []) (hmine : Idle (mesh.ids a b) mine (mesh.node a))
    (htheirs : Idle (mesh.ids b a) theirs (mesh.node b)) :
    ((mesh.requestHeaders a b).requestHeaders b a).Meets mine theirs reply theirReply mesh.ids 0 a b := by
  have hfirst := requestHeaders_eq (hpeers ▸ List.mem_singleton_self b) hmine.load
  have hsecond : (mesh.put a b (locatorsFrame K mine)).requestHeaders b a = _ :=
    requestHeaders_eq (hpeers' ▸ List.mem_singleton_self a) htheirs.load
  rw [hfirst, hsecond]
  refine ⟨rfl, ?_, ?_, [], [locatorsFrame K mine], [], [locatorsFrame K theirs], ?_, ?_, ?_, ?_, rfl⟩
  · simp [put, hpeers]
  · simp [put, hpeers']
  · have hside : ((mesh.put a b (locatorsFrame K mine)).put b a (locatorsFrame K theirs)).side a b = ⟨mesh.node a, true⟩ := by
      simp [side, put, hpeers]
    rw [hside]
    exact .asked hmine
  · have hside : ((mesh.put a b (locatorsFrame K mine)).put b a (locatorsFrame K theirs)).side b a = ⟨mesh.node b, true⟩ := by
      simp [side, put, hpeers']
    rw [hside]
    exact .asked htheirs
  · simp [put, Wires.put_apply, hab, Ne.symm hab, hquiet']
  · simp [put, Wires.put_apply, hab, Ne.symm hab, hquiet]

theorem Meets.done (h : mesh.Meets mine theirs reply theirReply ids turns a b) (hquiet : mesh.wires a b = [])
    (hquiet' : mesh.wires b a = []) : Done mine theirs (mesh.side a b) ∧ Done theirs mine (mesh.side b a) := by
  have hcoupled := h.coupled
  rw [hquiet, hquiet'] at hcoupled
  obtain ⟨said, said', hleft, hright⟩ := hcoupled.drained
  exact ⟨hleft.done hright rfl rfl, hright.done hleft rfl rfl⟩

theorem Meets.keeps (h : mesh.Meets mine theirs reply theirReply ids turns a b) :
    KeepsWork mine theirs (mesh.node a) ∧ KeepsWork theirs mine (mesh.node b) := by
  obtain ⟨_, _, _, _, hleft, hright, -⟩ := h.coupled
  exact ⟨hleft.keeps, hright.keeps⟩

end Mesh

/-- The chain with more work is what both settle on, if it is offered to its end. -/
theorem settled_most {mine theirs : List Block} {i : Nat} (hfork : forkPoint K mine theirs = some i)
    (hlen : theirs.length ≤ i + 1 + Node.maxHeaders) (hmore : work mine < work theirs) :
    settled K mine theirs = theirs ∧ settled K theirs mine = theirs := by
  have hall : offeredChain K mine theirs = theirs := by
    rw [offeredChain, hfork]
    exact List.take_of_length_le hlen
  constructor
  · rw [settled, hall, if_pos hmore]
  · have hle := work_begins (offeredChain_begins (K := K) theirs mine)
    exact if_neg (by omega)

/-- Two nodes meet, and each has asked the other for headers before its reader starts. However the two readers take turns,
each node has at every point its own chain or a beginning of the other's with more work; there is a last turn; and when
nothing is on its way, each node has decided, and has hung up exactly if it was offered blocks for nothing. So if the chain
with more work ends within 2000 blocks of the fork, both nodes have it, although the node that had it may have hung up. -/
theorem meeting_settles (hab : a ≠ b) (hpeers : mesh.peers a = [b]) (hpeers' : mesh.peers b = [a])
    (hquiet : mesh.wires a b = []) (hquiet' : mesh.wires b a = []) {mine theirs : List Block}
    (hmine : Idle (mesh.ids a b) mine (mesh.node a)) (htheirs : Idle (mesh.ids b a) theirs (mesh.node b))
    (hshared : Shared K mine theirs) (hcompact : Compact mine) (hcompact' : Compact theirs) :
    (∀ events, (∀ event ∈ events, event.Between a b) →
      let last := ((mesh.requestHeaders a b).requestHeaders b a).run events
      (KeepsWork mine theirs (last.node a) ∧ KeepsWork theirs mine (last.node b)) ∧
        (last.wires a b = [] → last.wires b a = [] →
          (Done mine theirs (last.side a b) ∧ Done theirs mine (last.side b a)) ∧
            ∀ i, forkPoint K mine theirs = some i → theirs.length ≤ i + 1 + Node.maxHeaders → work mine < work theirs →
              (last.node a).storage = some theirs ∧ (last.node b).storage = some theirs)) ∧
      ∀ reads, (∀ read ∈ reads, (Mesh.Event.read read.1 read.2.1 read.2.2 : Mesh.Event K N).Between a b) →
        ((mesh.requestHeaders a b).requestHeaders b a).Delivers reads →
        reads.length ≤ 4 + 2 * ((offered K mine theirs).length + (offered K theirs mine).length) := by
  have hc : Comparable K mine theirs :=
    ⟨(load_ok.mp hmine.load).2, (load_ok.mp htheirs.load).2, hshared, hcompact, hcompact'⟩
  obtain ⟨theirReply, htheirReply⟩ := hc.answers
  obtain ⟨reply, hreply⟩ := hc.symm.answers
  have hstart : ((mesh.requestHeaders a b).requestHeaders b a).Meets mine theirs reply theirReply mesh.ids 0 a b :=
    .start hab hpeers hpeers' hquiet hquiet' hmine htheirs
  refine ⟨fun events hevents => ?_, fun reads hreads hdelivers => ?_⟩
  · obtain ⟨turns, hlast⟩ := Mesh.Meets.run hab hc hreply htheirReply hstart hevents
    refine ⟨hlast.keeps, fun hnone hnone' => ?_⟩
    have hdone := hlast.done hnone hnone'
    refine ⟨hdone, fun i hfork hlen hmore => ?_⟩
    obtain ⟨h₁, h₂⟩ := settled_most hfork hlen hmore
    exact ⟨h₁ ▸ hdone.1.storage, h₂ ▸ hdone.2.storage⟩
  · cases reads with
    | nil => exact Nat.zero_le _
    | cons first rest =>
      obtain ⟨last, hlast⟩ := Mesh.Meets.delivers hab hc hreply htheirReply hstart hreads hdelivers
      rw [Nat.zero_add] at hlast
      exact hlast.turns_le hc hreply htheirReply first.1

end

/-! ## A node that is one block behind -/

def toyMeeting : Mesh toyCrypto Bool :=
  { toyMesh with node := fun n => if n then toyNode [toyGenesis, toyFirst] else toyNode [toyGenesis] }

def toyTurns : List (Mesh.Event toyCrypto Bool) :=
  [.read toyChoice false true, .read toyChoice true false, .read toyChoice true false, .read toyChoice false true,
    .read toyChoice false true, .read toyChoice true false]

theorem meeting_settles_toy :
    ((((toyMeeting.requestHeaders false true).requestHeaders true false).run toyTurns).node false).storage =
      some [toyGenesis, toyFirst] := by
  have hmine : Idle (toyMeeting.ids false true) [toyGenesis] (toyMeeting.node false) := ⟨toyGenesis_loaded, rfl, rfl⟩
  have htheirs : Idle (toyMeeting.ids true false) [toyGenesis, toyFirst] (toyMeeting.node true) :=
    ⟨toyPair_loaded, rfl, rfl⟩
  have hshared : Shared toyCrypto [toyGenesis] [toyGenesis, toyFirst] :=
    toy_shared (by simp) (by unfold CollisionFree; decide +kernel) (by decide +kernel)
  have hfork : forkPoint toyCrypto [toyGenesis] [toyGenesis, toyFirst] = some 0 := by decide +kernel
  have hall := (meeting_settles (by decide) rfl rfl rfl rfl hmine htheirs hshared (compact_of_total (by decide +kernel))
    (compact_of_total (by decide +kernel))).1 toyTurns (by simp [toyTurns, Mesh.Event.Between])
  exact ((hall.2 (by decide +kernel) (by decide +kernel)).2 0 hfork (by decide) (by decide +kernel)).1

end Caesar
