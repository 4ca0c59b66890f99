import Caesar.Sessions
import Caesar.SyncSound

/-!
# Where a candidate comes from

Whatever the readers and the node do between each other's locks, the headers in
a session are those of one message from its peer, and a candidate joins them to
a chain that was stored. An open session is never exchanged for another.
-/

namespace Caesar

open Codec

section
variable {K : Crypto}

/-! ## Assembly -/

theorem assembleLoop_some : ∀ {pairs : List (BlockHeader × Block)} {ancestor : Block} {blocks : List Block},
    assembleLoop K pairs (ancestor.hash K) (ancestor.header.height + 1) = some blocks →
      blocks = pairs.map Prod.snd ∧ (∀ pair ∈ pairs, pair.2.hash K = pair.1.hash K) ∧ Linked K ancestor blocks
  | [], _, _, h => by
    cases h
    exact ⟨rfl, by simp, trivial⟩
  | (header, block) :: pairs, ancestor, blocks, h => by
    rw [assembleLoop] at h
    by_cases hhash : header.hash K = block.hash K
    · by_cases hprev : block.header.previousHash = ancestor.hash K
      · by_cases hheight : block.header.height = ancestor.header.height + 1
        · rw [if_neg (by simpa using hhash), if_neg (by simpa using hprev), if_neg (by simpa using hheight)] at h
          split at h
          · cases h
          · rw [← hheight] at h
            obtain ⟨rest, hrest, rfl⟩ := Option.map_eq_some_iff.mp h
            obtain ⟨rfl, hpairs, hlinked⟩ := assembleLoop_some hrest
            refine ⟨rfl, ?_, hprev, hheight, hlinked⟩
            rw [List.forall_mem_cons]
            exact ⟨hhash.symm, hpairs⟩
        · simp [hhash, hprev, hheight] at h
      · simp [hhash, hprev] at h
    · simp [hhash] at h

theorem assembleCandidate_some {current candidate blocks : List Block} {headers : List BlockHeader}
    (h : assembleCandidateChain K current headers blocks = some candidate) : ∃ n ancestor, current[n]? = some ancestor ∧
      candidate = current.take (n + 1) ++ blocks ∧ blocks.map (Block.hash K) = headers.map (BlockHeader.hash K) ∧
      Linked K ancestor blocks := by
  unfold assembleCandidateChain at h
  split at h
  · cases h
  · split at h
    · cases h
    · split at h
      · cases h
      · rename_i hlen
        split at h
        · cases h
        · rename_i n hn
          split at h
          · cases h
          · rename_i ancestor ha
            obtain ⟨joined, hloop, rfl⟩ := Option.map_eq_some_iff.mp h
            obtain ⟨rfl, hpairs, hlinked⟩ := assembleLoop_some hloop
            rw [not_not] at hlen
            have hfst : (headers.zip blocks).map Prod.fst = headers := List.map_fst_zip (by omega)
            have hsnd : (headers.zip blocks).map Prod.snd = blocks := List.map_snd_zip (by omega)
            rw [hsnd] at hlinked ⊢
            refine ⟨n, ancestor, ha, rfl, ?_, hlinked⟩
            calc blocks.map (Block.hash K)
                = ((headers.zip blocks).map Prod.snd).map (Block.hash K) := by rw [hsnd]
              _ = (headers.zip blocks).map (fun pair => pair.2.hash K) := List.map_map
              _ = (headers.zip blocks).map (fun pair => pair.1.hash K) := List.map_congr_left hpairs
              _ = ((headers.zip blocks).map Prod.fst).map (BlockHeader.hash K) := by
                  rw [List.map_map]
                  rfl
              _ = headers.map (BlockHeader.hash K) := by rw [hfst]

theorem assembleSession_ok {node : Node K} {headers : List BlockHeader} {blocks candidate : List Block}
    (h : node.assembleSession headers blocks = .ok candidate) : ∃ chain, node.storage.load K = .ok chain ∧
      assembleCandidateChain K chain headers blocks = some candidate := by
  obtain ⟨-, h⟩ := ite_error_ok.mp h
  obtain ⟨chain, hload, h⟩ := bind_ok.mp h
  refine ⟨chain, hload, ?_⟩
  cases hc : assembleCandidateChain K chain headers blocks with
  | none => simp [hc] at h
  | some joined =>
    simp only [hc, pure_ok] at h
    rw [h]

theorem receiveHeaders_length {node : Node K} {payload : Bytes} {headers : List BlockHeader} {direct : Bool}
    (h : node.receiveHeaders payload = .ok (some (headers, direct))) : headers.length ≤ Node.maxHeaders := by
  obtain ⟨read, hread, h⟩ := bind_ok.mp h
  have hlen := (((readReceivedHeaders_exact K) _ _ _).mp (readAll_ok.mp hread)).1.1
  cases hfirst : read.head? with
  | none => simp [hfirst] at h
  | some first =>
    simp only [hfirst] at h
    obtain ⟨-, h⟩ := ite_error_ok.mp h
    obtain ⟨chain, -, h⟩ := bind_ok.mp h
    cases htip : chain.getLast? with
    | none => simp [htip] at h
    | some tip =>
      simp only [htip] at h
      obtain ⟨fork, -, h⟩ := bind_ok.mp h
      simp only [pure_ok, Option.some.injEq, Prod.mk.injEq] at h
      rw [← h.1]
      exact hlen

theorem Linked.heights : ∀ {blocks : List Block} {ancestor : Block}, Linked K ancestor blocks →
    ancestor.header.height.toNat + blocks.length < 2 ^ 64 → ∀ (j : Nat) (block : Block), blocks[j]? = some block →
      block.header.height.toNat = ancestor.header.height.toNat + 1 + j
  | [], _, _, _, _, _, hj => by simp at hj
  | next :: rest, ancestor, h, hlt, j, block, hj => by
    obtain ⟨-, hheight, hrest⟩ := h
    rw [List.length_cons] at hlt
    have hnext : next.header.height.toNat = ancestor.header.height.toNat + 1 := by
      rw [hheight, UInt64.toNat_add, show (1 : UInt64).toNat = 1 from rfl]
      omega
    cases j with
    | zero =>
      cases hj
      exact hnext
    | succ j =>
      have := hrest.heights (by omega) j block hj
      omega

/-- `candidate` is `chain` up to one of its blocks, and then blocks with the hashes of the headers, linked to it. -/
def Joins (K : Crypto) (chain : List Block) (headers : List BlockHeader) (candidate : List Block) : Prop :=
  ∃ n ancestor blocks, chain[n]? = some ancestor ∧ candidate = chain.take (n + 1) ++ blocks ∧
    blocks.map (fun block => block.header.hash K) = headers.map (BlockHeader.hash K) ∧ Linked K ancestor blocks ∧
    ∀ (j : Nat) (block : Block), blocks[j]? = some block → block.header.height.toNat = n + 1 + j

theorem joins_of_assembled {chain candidate blocks : List Block} {headers : List BlockHeader} (hl : Loadable K chain)
    (hlen : headers.length ≤ Node.maxHeaders) (h : assembleCandidateChain K chain headers blocks = some candidate) :
    Joins K chain headers candidate := by
  obtain ⟨n, ancestor, ha, hjoin, hhash, hlinked⟩ := assembleCandidate_some h
  obtain ⟨u, t, hr⟩ := hl.replay
  have hn := hr.height n ancestor ha
  have hblocks : blocks.length ≤ Node.maxHeaders := by
    have := congrArg List.length hhash
    rw [List.length_map, List.length_map] at this
    omega
  refine ⟨n, ancestor, blocks, ha, hjoin, hhash, hlinked, ?_⟩
  have hbound : maxBlocks + Node.maxHeaders < 2 ^ 64 := by decide
  have hcount := hl.count
  have hlt := (List.getElem?_eq_some_iff.mp ha).1
  rw [← hn]
  exact hlinked.heights (by omega)

/-! ## What one step does -/

@[simp] theorem setPending_self (node : Node K) (id : UInt64) (p : Option PendingChainSync) :
    (node.setPending id p).pendingChainSyncs id = p := Function.update_self ..

theorem setPending_of_ne (node : Node K) {id id' : UInt64} (h : id' ≠ id) (p : Option PendingChainSync) :
    (node.setPending id p).pendingChainSyncs id' = node.pendingChainSyncs id' := Function.update_of_ne h ..

theorem clearSession_pending {node : Node K} {id id' : UInt64} {sessionId : P2PSyncSessionId} {p : PendingChainSync}
    (h : (node.clearSession id sessionId).pendingChainSyncs id' = some p) : node.pendingChainSyncs id' = some p := by
  unfold Node.clearSession at h
  split at h
  · exact h
  · split at h
    · by_cases he : id' = id
      · subst he
        simp at h
      · rwa [setPending_of_ne node he] at h
    · exact h

/-- A message of sync blocks changes nothing, ends the session it names or puts blocks into it; what a complete session
copies are its own headers. -/
theorem receiveSyncBlocks_cases (node : Node K) (id : UInt64) (payload : Bytes) :
    (node.receiveSyncBlocks id payload).2 = node ∧
        (∀ copied, (node.receiveSyncBlocks id payload).1 ≠ .ok (some copied)) ∨
      ∃ message p, SyncBlocksMessage.deserializeBinary payload = .ok message ∧ node.pendingChainSyncs id = some p ∧
        p.sessionId = message.sessionId ∧
        ((node.receiveSyncBlocks id payload).2 = node.setPending id none ∧
            (∀ copied, (node.receiveSyncBlocks id payload).1 ≠ .ok (some copied)) ∨
          ∃ blocks, (node.receiveSyncBlocks id payload).2 = node.setPending id (some { p with blocks := blocks }) ∧
            ∀ copied, (node.receiveSyncBlocks id payload).1 = .ok (some copied) →
              copied.1 = p.sessionId ∧ copied.2.1 = p.headers) := by
  unfold Node.receiveSyncBlocks
  cases hm : SyncBlocksMessage.deserializeBinary payload with
  | error e => exact .inl ⟨rfl, by simp⟩
  | ok message =>
    cases hp : node.pendingChainSyncs id with
    | none => exact .inl ⟨rfl, by simp⟩
    | some p =>
      by_cases hid : p.sessionId = message.sessionId
      · refine .inr ⟨message, p, rfl, rfl, hid, ?_⟩
        simp only [hid, ne_eq, not_true_eq_false, if_false]
        by_cases hempty : message.blocks.isEmpty = true
        · refine .inl ?_
          simp [hempty]
        · refine .inr ?_
          simp only [hempty, if_false, Bool.false_eq_true]
          cases (Node.receiveBlocks K p.headers message.blocks p.blocks).1 with
          | error e => exact ⟨_, rfl, by simp⟩
          | ok u =>
            simp only
            split
            · refine ⟨_, rfl, ?_⟩
              rintro ⟨sessionId, headers, blocks⟩ hcopied
              simp only [Except.ok.injEq, Option.some.injEq, Prod.mk.injEq] at hcopied
              exact ⟨hcopied.1.symm, hcopied.2.1.symm⟩
            · exact ⟨_, rfl, by simp⟩
      · refine .inl ?_
        simp [hid]

theorem receiveSyncBlocks_pending {node : Node K} {id id' : UInt64} {payload : Bytes} {p' : PendingChainSync}
    (h : (node.receiveSyncBlocks id payload).2.pendingChainSyncs id' = some p') :
    ∃ p, node.pendingChainSyncs id' = some p ∧ p'.sessionId = p.sessionId ∧ p'.headers = p.headers := by
  rcases receiveSyncBlocks_cases node id payload with ⟨hsame, -⟩ | ⟨message, p, -, hp, -, hafter⟩
  · rw [hsame] at h
    exact ⟨p', h, rfl, rfl⟩
  · by_cases he : id' = id
    · subst he
      refine ⟨p, hp, ?_⟩
      rcases hafter with ⟨hafter, -⟩ | ⟨blocks, hafter, -⟩
      · simp [hafter] at h
      · rw [hafter, setPending_self, Option.some.injEq] at h
        rw [← h]
        exact ⟨rfl, rfl⟩
    · refine ⟨p', ?_, rfl, rfl⟩
      rcases hafter with ⟨hafter, -⟩ | ⟨blocks, hafter, -⟩
      · rwa [hafter, setPending_of_ne node he] at h
      · rwa [hafter, setPending_of_ne node he] at h

theorem Step.sessions {node after : Node K} {call : Call K} (h : Step node call after) :
    after.pendingChainSyncs = node.pendingChainSyncs := by
  cases h with
  | stay => rfl
  | accept _ _ _ _ => rfl
  | mine _ hm =>
    obtain ⟨_, _, _, _, _, -, -, -, rfl⟩ := hm
    rfl
  | replace _ _ _ _ => rfl
  | relay _ _ _ _ _ => rfl

/-- A session after a step was there before it, or its headers are what its reader had just checked. -/
theorem SyncStep.pending {s s' : SyncState K} {event : SyncEvent} (h : SyncStep s event s') {id : UInt64}
    {p' : PendingChainSync} (hp : s'.node.pendingChainSyncs id = some p') :
    (∃ p, s.node.pendingChainSyncs id = some p ∧ p'.sessionId = p.sessionId ∧ p'.headers = p.headers) ∨
      s.node.pendingChainSyncs id = none ∧ s.readers id = .checked p'.headers := by
  cases h with
  | change hsame =>
    rw [show s.node.pendingChainSyncs id = some p' from hsame ▸ hp]
    exact .inl ⟨p', rfl, rfl, rfl⟩
  | headers _ _ => exact .inl ⟨p', hp, rfl, rfl⟩
  | found _ _ => exact .inl ⟨p', hp, rfl, rfl⟩
  | @opened id' headers sessionId hreader hnone =>
    by_cases he : id = id'
    · subst he
      simp only [SyncState.goTo, Node.openSession, setPending_self, Option.some.injEq] at hp
      subst hp
      exact .inr ⟨hnone, hreader⟩
    · simp only [SyncState.goTo, Node.openSession, setPending_of_ne s.node he] at hp
      exact .inl ⟨p', hp, rfl, rfl⟩
  | requested _ => exact .inl ⟨p', hp, rfl, rfl⟩
  | unrequested _ => exact .inl ⟨p', clearSession_pending hp, rfl, rfl⟩
  | received _ hrec _ => exact .inl (receiveSyncBlocks_pending (by rw [hrec]; exact hp))
  | completed _ hrec => exact .inl (receiveSyncBlocks_pending (by rw [hrec]; exact hp))
  | assembled _ _ => exact .inl ⟨p', hp, rfl, rfl⟩
  | unassembled _ _ => exact .inl ⟨p', hp, rfl, rfl⟩
  | replace walk _ =>
    have hp : (s.node.replaceChain walk _).2.pendingChainSyncs id = some p' := hp
    rw [(replaceChain_step s.node walk _).sessions] at hp
    exact .inl ⟨p', hp, rfl, rfl⟩
  | closed _ => exact .inl ⟨p', clearSession_pending hp, rfl, rfl⟩

/-! ## Whole runs -/

def SyncState.Accepted (init s : SyncState K) (id : UInt64) (headers : List BlockHeader) : Prop :=
  ∃ before after, SyncRun init before ∧ SyncStep before (.headers id headers) after ∧ SyncRun after s

def SyncState.Stored (init s : SyncState K) (chain : List Block) : Prop :=
  ∃ before, SyncRun init before ∧ SyncRun before s ∧ before.node.storage = some chain

def SyncState.Justified (init s : SyncState K) (id : UInt64) (candidate : List Block) : Prop :=
  ∃ chain headers, init.Stored s chain ∧ init.Accepted s id headers ∧ Joins K chain headers candidate

variable {init s s' : SyncState K} {event : SyncEvent} {id : UInt64}

theorem goTo_self (node : Node K) (reader : ReaderState) : (s.goTo id node reader).readers id = reader :=
  Function.update_self ..

theorem goTo_of_ne {id' : UInt64} (h : id' ≠ id) (node : Node K) (reader : ReaderState) :
    (s.goTo id node reader).readers id' = s.readers id' := Function.update_of_ne h ..

theorem goTo_same (h : s.readers id = .idle) : s.goTo id s.node .idle = s := by
  rw [SyncState.goTo, ← h, Function.update_eq_self]

theorem SyncRun.snoc (h : SyncRun init s) (hs : SyncStep s event s') : SyncRun init s' := h.tail ⟨event, hs⟩

theorem SyncState.Accepted.step {headers : List BlockHeader} (h : init.Accepted s id headers) (hs : SyncStep s event s') :
    init.Accepted s' id headers := by
  obtain ⟨before, after, hb, hm, ha⟩ := h
  exact ⟨before, after, hb, hm, ha.snoc hs⟩

theorem SyncState.Justified.step {candidate : List Block} (h : init.Justified s id candidate) (hs : SyncStep s event s') :
    init.Justified s' id candidate := by
  obtain ⟨chain, headers, ⟨before, hb, ha, hstore⟩, haccepted, hjoins⟩ := h
  exact ⟨chain, headers, ⟨before, hb, ha.snoc hs, hstore⟩, haccepted.step hs, hjoins⟩

/-- What a reader holds between two locks. -/
def ReaderState.Sound (init s : SyncState K) (id : UInt64) : ReaderState → Prop
  | .checked headers => init.Accepted s id headers
  | .complete _ headers _ => init.Accepted s id headers
  | .offering _ candidate => init.Justified s id candidate
  | .idle => True
  | .requesting _ => True
  | .closing _ => True

theorem ReaderState.Sound.step {reader : ReaderState} (h : reader.Sound init s id) (hs : SyncStep s event s') :
    reader.Sound init s' id := by
  cases reader with
  | idle => trivial
  | checked headers => exact SyncState.Accepted.step h hs
  | requesting sessionId => trivial
  | complete sessionId headers blocks => exact SyncState.Accepted.step h hs
  | offering sessionId candidate => exact SyncState.Justified.step h hs
  | closing sessionId => trivial

structure SyncSound (init s : SyncState K) : Prop where
  run : SyncRun init s
  pending : ∀ id p, s.node.pendingChainSyncs id = some p → init.Accepted s id p.headers
  readers : ∀ id, (s.readers id).Sound init s id

theorem SyncState.Fresh.sound (h : init.Fresh) : SyncSound init init where
  run := .refl
  pending := by
    intro id p hp
    rw [h.pending id] at hp
    cases hp
  readers := by
    intro id
    rw [h.readers id]
    trivial

theorem SyncSound.pending_step (h : SyncSound init s) (hs : SyncStep s event s') :
    ∀ id p, s'.node.pendingChainSyncs id = some p → init.Accepted s' id p.headers := by
  intro id p' hp
  rcases hs.pending hp with ⟨p, hbefore, -, hheaders⟩ | ⟨-, hreader⟩
  · rw [hheaders]
    exact (h.pending id p hbefore).step hs
  · have := h.readers id
    rw [hreader] at this
    exact SyncState.Accepted.step this hs

theorem SyncSound.goTo (h : SyncSound init s) {node : Node K} {reader : ReaderState}
    (hs : SyncStep s event (s.goTo id node reader)) (hreader : reader.Sound init (s.goTo id node reader) id) :
    SyncSound init (s.goTo id node reader) where
  run := h.run.snoc hs
  pending := h.pending_step hs
  readers := by
    intro id'
    by_cases he : id' = id
    · subst he
      rwa [goTo_self]
    · have := (h.readers id').step hs
      rwa [goTo_of_ne he]

theorem SyncSound.step (h : SyncSound init s) (hs : SyncStep s event s') : SyncSound init s' := by
  cases hs with
  | change hsame =>
    have hs := SyncStep.change hsame
    exact ⟨h.run.snoc hs, h.pending_step hs, fun id => (h.readers id).step hs⟩
  | headers hidle hchecked =>
    have hs := SyncStep.headers hidle hchecked
    exact h.goTo hs ⟨s, _, h.run, hs, .refl⟩
  | found hreader hsome => exact h.goTo (.found hreader hsome) trivial
  | opened sessionId hreader hnone => exact h.goTo (.opened sessionId hreader hnone) trivial
  | requested hreader => exact h.goTo (.requested hreader) trivial
  | unrequested hreader => exact h.goTo (.unrequested hreader) trivial
  | received hidle hrec hmore => exact h.goTo (.received hidle hrec hmore) trivial
  | @completed id payload sessionId headers blocks after hidle hrec =>
    have hs := SyncStep.completed hidle hrec
    refine h.goTo hs ?_
    rcases receiveSyncBlocks_cases s.node id payload with ⟨-, hno⟩ | ⟨message, p, -, hp, -, hafter⟩
    · exact absurd (by rw [hrec]) (hno (sessionId, headers, blocks))
    · rcases hafter with ⟨-, hno⟩ | ⟨kept, -, hcopied⟩
      · exact absurd (by rw [hrec]) (hno (sessionId, headers, blocks))
      · have hheaders : headers = p.headers := (hcopied (sessionId, headers, blocks) (by rw [hrec])).2
        rw [hheaders]
        exact SyncState.Accepted.step (h.pending id p hp) (hheaders ▸ hs)
  | @assembled id sessionId headers blocks candidate hreader hassemble =>
    have hs := SyncStep.assembled hreader hassemble
    refine h.goTo hs ?_
    have haccepted := h.readers id
    rw [hreader] at haccepted
    obtain ⟨chain, hload, hjoined⟩ := assembleSession_ok hassemble
    obtain ⟨hstore, hl⟩ := load_ok.mp hload
    have hlen : headers.length ≤ Node.maxHeaders := by
      obtain ⟨before, after, -, hm, -⟩ := haccepted
      cases hm with
      | headers _ hchecked => exact receiveHeaders_length hchecked
    exact SyncState.Justified.step
      ⟨chain, headers, ⟨s, h.run, .refl, hstore⟩, haccepted, joins_of_assembled hl hlen hjoined⟩ hs
  | unassembled hreader herror => exact h.goTo (.unassembled hreader herror) trivial
  | replace walk hreader => exact h.goTo (.replace walk hreader) trivial
  | closed hreader => exact h.goTo (.closed hreader) trivial

theorem SyncState.Fresh.run (hinit : init.Fresh) (h : SyncRun init s) : SyncSound init s := by
  induction h with
  | refl => exact hinit.sound
  | tail _ hs ih =>
    obtain ⟨event, hs⟩ := hs
    exact ih.step hs

/-! ## The handlers as runs

A handler that nothing interrupts is one of the runs, so the results about runs
are about the handlers as well.
-/

theorem SyncRun.one (h : SyncStep s event s') : SyncRun s s' := Relation.ReflTransGen.single ⟨event, h⟩

theorem goTo_goTo (node node' : Node K) (reader reader' : ReaderState) :
    (s.goTo id node reader).goTo id node' reader' = s.goTo id node' reader' := by
  simp [SyncState.goTo]

theorem goTo_idle (h : s.readers id = .idle) (node : Node K) : s.goTo id node .idle = { s with node := node } := by
  rw [SyncState.goTo, ← h, Function.update_eq_self]

theorem startSession_node (node : Node K) (id : UInt64) (sessionId : P2PSyncSessionId) (headers : List BlockHeader) :
    (node.startSession id sessionId headers).node = node ∨ node.pendingChainSyncs id = none ∧
      (node.startSession id sessionId headers).node = node.openSession id sessionId headers := by
  unfold Node.startSession
  by_cases hsome : (node.pendingChainSyncs id).isSome
  · rw [if_pos hsome]
    exact .inl rfl
  · rw [if_neg hsome]
    have hnone : node.pendingChainSyncs id = none := by simpa using hsome
    cases hsent : (sendAll (Node.requestSyncBlocks sessionId (headers.map fun header => header.hash K))).2 with
    | error e => simp [hsent]
    | ok u => simp [hsent, hnone, Node.openSession]

theorem handleHeaders_node (node : Node K) (id : UInt64) (sessionId : P2PSyncSessionId) (payload : Bytes) :
    (node.handleHeaders id sessionId payload).node = node ∨ ∃ headers,
      node.receiveHeaders payload = .ok (some (headers, false)) ∧ node.pendingChainSyncs id = none ∧
      (node.handleHeaders id sessionId payload).node = node.openSession id sessionId headers := by
  unfold Node.handleHeaders
  split
  · exact .inl rfl
  · exact .inl rfl
  · exact .inl rfl
  · rename_i headers hchecked
    rcases startSession_node node id sessionId headers with hsame | hopen
    · exact .inl hsame
    · exact .inr ⟨headers, hchecked, hopen⟩

theorem handleHeaders_run (hidle : s.readers id = .idle) (sessionId : P2PSyncSessionId) (payload : Bytes) :
    SyncRun s { s with node := (s.node.handleHeaders id sessionId payload).node } := by
  rcases handleHeaders_node s.node id sessionId payload with hsame | ⟨headers, hchecked, hnone, hopen⟩
  · rw [hsame]
    exact .refl
  · have hrun := SyncRun.one (SyncStep.headers hidle hchecked)
    have hrun := hrun.snoc (.opened sessionId (goTo_self ..) hnone)
    have hrun := hrun.snoc (.requested (goTo_self ..))
    rw [hopen]
    rwa [goTo_goTo, goTo_goTo, goTo_idle hidle] at hrun

theorem handleSyncBlocks_eq (node : Node K) (walk : Walk K) (id : UInt64) (payload : Bytes) :
    node.handleSyncBlocks walk id payload = match (node.receiveSyncBlocks id payload).1 with
      | .error e => (.error e, (node.receiveSyncBlocks id payload).2)
      | .ok none => (.ok (), (node.receiveSyncBlocks id payload).2)
      | .ok (some (_, headers, blocks)) => (node.receiveSyncBlocks id payload).2.completeSession walk id headers blocks := by
  unfold Node.handleSyncBlocks Node.receiveSyncBlocks
  cases SyncBlocksMessage.deserializeBinary payload with
  | error e => rfl
  | ok message =>
    cases node.pendingChainSyncs id with
    | none => rfl
    | some p =>
      by_cases hid : p.sessionId = message.sessionId
      · by_cases hempty : message.blocks.isEmpty = true
        · simp [hid, hempty]
        · simp only [hid, ne_eq, not_true_eq_false, if_false, hempty, Bool.false_eq_true]
          cases (Node.receiveBlocks K p.headers message.blocks p.blocks).1 with
          | error e => rfl
          | ok u =>
            by_cases hall : (Node.receiveBlocks K p.headers message.blocks p.blocks).2.all Option.isSome = true
            · simp [hall]
            · simp [hall]
      · simp [hid]

theorem clearSession_same {node : Node K} {p : PendingChainSync} (h : node.pendingChainSyncs id = some p) :
    node.clearSession id p.sessionId = node.setPending id none := by
  simp [Node.clearSession, h]

theorem completeSession_run {headers : List BlockHeader} {blocks : List Block} {p : PendingChainSync} (walk : Walk K)
    (hp : s.node.pendingChainSyncs id = some p) (hreader : s.readers id = .complete p.sessionId headers blocks) :
    SyncRun s (s.goTo id (s.node.completeSession walk id headers blocks).2 .idle) := by
  unfold Node.completeSession
  cases hassemble : s.node.assembleSession headers blocks with
  | error e =>
    have hrun := SyncRun.one (SyncStep.unassembled hreader hassemble)
    have hrun := hrun.snoc (.closed (goTo_self ..))
    rwa [goTo_goTo, show (s.goTo id s.node (.closing p.sessionId)).node = s.node from rfl, clearSession_same hp] at hrun
  | ok candidate =>
    have hrun := SyncRun.one (SyncStep.assembled hreader hassemble)
    have hrun := hrun.snoc (.replace walk (goTo_self ..))
    have hrun := hrun.snoc (.closed (goTo_self ..))
    have hp' : (s.node.replaceChain walk candidate).2.pendingChainSyncs id = some p := by
      rw [← hp, (replaceChain_step s.node walk candidate).sessions]
    rwa [goTo_goTo, goTo_goTo, show ((s.goTo id s.node (.offering p.sessionId candidate)).goTo id
      ((s.goTo id s.node (.offering p.sessionId candidate)).node.replaceChain walk candidate).2
        (.closing p.sessionId)).node = (s.node.replaceChain walk candidate).2 from rfl, clearSession_same hp'] at hrun

theorem completed_of (hidle : s.readers id = .idle) {payload : Bytes} {sessionId : P2PSyncSessionId}
    {headers : List BlockHeader} {blocks : List Block}
    (h : (s.node.receiveSyncBlocks id payload).1 = .ok (some (sessionId, headers, blocks))) :
    SyncStep s (.syncBlocks id payload)
      (s.goTo id (s.node.receiveSyncBlocks id payload).2 (.complete sessionId headers blocks)) :=
  .completed hidle (Prod.ext h rfl)

theorem offering_run (hidle : s.readers id = .idle) (hnone : s.node.pendingChainSyncs id = none)
    {announced received : Bytes} {sessionId : P2PSyncSessionId} {headers : List BlockHeader} {blocks candidate : List Block}
    (hchecked : s.node.receiveHeaders announced = .ok (some (headers, false)))
    (hreceived : ((s.node.openSession id sessionId headers).receiveSyncBlocks id received).1 =
      .ok (some (sessionId, headers, blocks)))
    (hassemble : ((s.node.openSession id sessionId headers).receiveSyncBlocks id received).2.assembleSession headers
      blocks = .ok candidate) : ∃ s', SyncRun s s' ∧ s'.readers id = .offering sessionId candidate := by
  have hrun := SyncRun.one (SyncStep.headers hidle hchecked)
  have hrun := hrun.snoc (.opened sessionId (goTo_self ..) hnone)
  have hrun := hrun.snoc (.requested (goTo_self ..))
  have hrun := hrun.snoc (completed_of (goTo_self ..) hreceived)
  have hrun := hrun.snoc (.assembled (goTo_self ..) hassemble)
  exact ⟨_, hrun, goTo_self ..⟩

theorem handleSyncBlocks_run (hidle : s.readers id = .idle) (walk : Walk K) (payload : Bytes) :
    SyncRun s { s with node := (s.node.handleSyncBlocks walk id payload).2 } := by
  rw [handleSyncBlocks_eq, ← goTo_idle hidle]
  cases hr : (s.node.receiveSyncBlocks id payload).1 with
  | error e => exact .one (.received hidle (Prod.ext hr rfl) (by simp))
  | ok copied =>
    cases copied with
    | none => exact .one (.received hidle (Prod.ext hr rfl) (by simp))
    | some copied =>
      obtain ⟨sessionId, headers, blocks⟩ := copied
      have hrun := SyncRun.one (completed_of hidle hr)
      rcases receiveSyncBlocks_cases s.node id payload with ⟨-, hno⟩ | ⟨message, p, -, hp, -, hafter⟩
      · exact absurd hr (hno _)
      · rcases hafter with ⟨-, hno⟩ | ⟨kept, hafter, hcopied⟩
        · exact absurd hr (hno _)
        · obtain ⟨rfl, -⟩ := hcopied _ hr
          have hpending : (s.node.receiveSyncBlocks id payload).2.pendingChainSyncs id =
              some { p with blocks := kept } := by rw [hafter, setPending_self]
          have hmore := completeSession_run (s := s.goTo id _ (.complete p.sessionId headers blocks)) walk hpending
            (goTo_self ..)
          rw [goTo_goTo] at hmore
          exact hrun.trans hmore

theorem reply_node (node : Node K) (frames : Result (List (Result P2PFrame))) : (node.reply frames).node = node := by
  cases frames with
  | error e => rfl
  | ok frames => rfl

theorem handleFrame_sessions (choice : Node.Choice K) (frame : P2PFrame) (node : Node K) (hh : frame.type ≠ .headers)
    (hs : frame.type ≠ .syncBlocks) :
    (node.handleFrame choice id frame).node.pendingChainSyncs = node.pendingChainSyncs := by
  unfold Node.handleFrame
  cases htype : frame.type with
  | headers => exact absurd htype hh
  | syncBlocks => exact absurd htype hs
  | blocks => exact (handleBlocks_step node frame.payload).sessions
  | transaction =>
    simp only [Outcome.silent, Node.handleTransaction]
    split
    · rfl
    · split
      · rfl
      · exact (acceptTransaction_step node _).sessions
  | getSyncBlocks => exact congrArg _ (reply_node ..)
  | getBlocks => exact congrArg _ (reply_node ..)
  | getHeaders => exact congrArg _ (reply_node ..)
  | ping => exact congrArg _ (reply_node ..)
  | pong => exact congrArg _ (reply_node ..)
  | getMempool => exact congrArg _ (reply_node ..)
  | getTransaction => exact congrArg _ (reply_node ..)
  | getPeers => exact congrArg _ (reply_node ..)
  | peers => exact congrArg _ (reply_node ..)
  | reject => rfl
  | hello => rfl

theorem handleFrame_run (hidle : s.readers id = .idle) (choice : Node.Choice K) (frame : P2PFrame) :
    SyncRun s { s with node := (s.node.handleFrame choice id frame).node } := by
  by_cases hh : frame.type = .headers
  · have := handleHeaders_run hidle choice.sessionId frame.payload
    simpa only [Node.handleFrame, hh] using this
  · by_cases hs : frame.type = .syncBlocks
    · have := handleSyncBlocks_run hidle choice.walk frame.payload
      simpa only [Node.handleFrame, hs, Outcome.silent] using this
    · exact .one (.change (handleFrame_sessions choice frame s.node hh hs))

/-! ## Safety -/

/-- What the callback is given, that a session stays until it is closed, and that a message for another session is
ignored. -/
theorem sync_sessions_safe (hinit : init.Fresh) (hrun : SyncRun init s) :
    (∀ id candidate s', SyncStep s (.replace id candidate) s' → ∃ chain headers, init.Stored s chain ∧
      init.Accepted s id headers ∧ Joins K chain headers candidate) ∧
    (∀ event s', SyncStep s event s' → ∀ id p p', s.node.pendingChainSyncs id = some p →
      s'.node.pendingChainSyncs id = some p' → p'.sessionId = p.sessionId ∧ p'.headers = p.headers) ∧
    (∀ id payload message s', SyncBlocksMessage.deserializeBinary payload = .ok message →
      (∀ p, s.node.pendingChainSyncs id = some p → p.sessionId ≠ message.sessionId) →
      SyncStep s (.syncBlocks id payload) s' → s' = s) := by
  refine ⟨?_, ?_, ?_⟩
  · intro id candidate s' hs
    have hreaders := (hinit.run hrun).readers id
    cases hs with
    | replace walk hreader =>
      rw [hreader] at hreaders
      exact hreaders
  · intro event s' hs id p p' hp hp'
    rcases hs.pending hp' with ⟨q, hq, hid, hheaders⟩ | ⟨hnone, -⟩
    · rw [hp] at hq
      cases hq
      exact ⟨hid, hheaders⟩
    · rw [hp] at hnone
      cases hnone
  · intro id payload message s' hm hother hs
    have hsame : (s.node.receiveSyncBlocks id payload).2 = s.node ∧
        ∀ copied, (s.node.receiveSyncBlocks id payload).1 ≠ .ok (some copied) := by
      rcases receiveSyncBlocks_cases s.node id payload with hsame | ⟨message', p, hm', hp, hid, -⟩
      · exact hsame
      · rw [hm] at hm'
        cases hm'
        exact absurd hid (hother p hp)
    cases hs with
    | received hidle hrec _ =>
      obtain rfl : s.node = _ := by rw [← hsame.1, hrec]
      exact goTo_same hidle
    | completed _ hrec => exact absurd (by rw [hrec]) (hsame.2 _)

end

def toySync : SyncState toyCrypto := ⟨toyNode [toyGenesis, toyFirst], fun _ => .idle⟩

theorem sync_sessions_safe_toy : ∃ s, SyncRun toySync s ∧ s.readers 1 = .offering ⟨1, 2⟩ [toyGenesis, toyRival] ∧
    ∃ chain headers, toySync.Stored s chain ∧ toySync.Accepted s 1 headers ∧
      Joins toyCrypto chain headers [toyGenesis, toyRival] := by
  have hfresh : toySync.Fresh := ⟨fun _ => rfl, fun _ => rfl⟩
  have hchecked : toySync.node.receiveHeaders (Node.headersFrame [toyRival.header]).payload =
    .ok (some ([toyRival.header], false)) := by decide +kernel
  have hreceived : ((toySync.node.openSession 1 ⟨1, 2⟩ [toyRival.header]).receiveSyncBlocks 1
      (syncBlocksFrameOf ⟨1, 2⟩ [toyRival]).payload).1 = .ok (some (⟨1, 2⟩, [toyRival.header], [toyRival])) := by
    decide +kernel
  have hassemble : ((toySync.node.openSession 1 ⟨1, 2⟩ [toyRival.header]).receiveSyncBlocks 1
      (syncBlocksFrameOf ⟨1, 2⟩ [toyRival]).payload).2.assembleSession [toyRival.header] [toyRival] =
    .ok [toyGenesis, toyRival] := by decide +kernel
  obtain ⟨s, hrun, hoffer⟩ := offering_run (hfresh.readers 1) (hfresh.pending 1) hchecked hreceived hassemble
  exact ⟨s, hrun, hoffer, (sync_sessions_safe hfresh hrun).1 1 _ _ (.replace toyWalk hoffer)⟩

end Caesar
