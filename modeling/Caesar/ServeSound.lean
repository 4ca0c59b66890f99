import Caesar.StorageSound
import Caesar.SyncSound

/-!
# Serving blocks

A request for blocks is answered with one frame, whatever the blocks weigh
together. A request of a session is answered with frames that are divided by the
weight of the next block only. For both it is said exactly when every block
arrives.
-/

namespace Caesar

open Codec

section
variable {K : Crypto} {node : Node K} {chain : List Block}

/-- Nothing is thrown, each frame is within the payload limit, and their readers find the blocks in order. -/
structure ServesBlocks (blocks : List Block) (outcome : Outcome K) : Prop where
  returns : outcome.result = .ok ()
  within : ∀ frame ∈ outcome.sent, frame.type = .blocks ∧ frame.payload.length ≤ czrP2PMaxPayload
  carried : ∃ parts, (outcome.sent.mapM fun frame =>
    readAll Node.readRelayedBlocks "trailing bytes in relayed blocks payload" frame.payload) = .ok parts ∧
      parts.flatten = blocks

structure ServesSession (session : P2PSyncSessionId) (blocks : List Block) (outcome : Outcome K) : Prop where
  returns : outcome.result = .ok ()
  within : ∀ frame ∈ outcome.sent, frame.type = .syncBlocks ∧ frame.payload.length ≤ czrP2PMaxPayload
  carried : ∃ messages, (outcome.sent.mapM fun frame => SyncBlocksMessage.deserializeBinary frame.payload) = .ok messages ∧
    (∀ message ∈ messages, message.sessionId = session) ∧
      messages.flatMap SyncBlocksMessage.blocks = blocks.map Block.bytes

theorem sendAll_within : ∀ {frames : List P2PFrame}, (sendAll (frames.map .ok)).2 = .ok () →
    ∀ frame ∈ frames, frame.payload.length ≤ czrP2PMaxPayload
  | [], _ => by simp
  | frame :: rest, h => by
    rw [List.map_cons, sendAll] at h
    by_cases hover : frame.payload.length > czrP2PMaxPayload
    · have hsend : ((.ok frame : Result P2PFrame) >>= sendFrame) = fail "P2P payload too large" := if_pos hover
      rw [hsend] at h
      cases h
    · have hsend : ((.ok frame : Result P2PFrame) >>= sendFrame) = .ok frame := if_neg hover
      rw [hsend] at h
      exact List.forall_mem_cons.mpr ⟨Nat.not_lt.mp hover, sendAll_within h⟩

theorem Loadable.known_fits (h : Loadable K chain) {hashes : List Hash256} :
    ∀ block ∈ known K chain hashes, block.Fits decodeLimit :=
  fun block hb => (h.stored block (mem_known hb)).1

/-! ## One frame for all blocks -/

/-- The known blocks of a request arrive if and only if they fit in one frame together. -/
theorem get_blocks_served_iff (hload : node.storage.load K = .ok chain)
    (hfit : ∀ block ∈ chain, block.bytes.length ≤ czrP2PMaxPayload) {hashes : List Hash256} (hne : hashes ≠ [])
    (hlen : hashes.length ≤ maxBatch) :
    (known K chain hashes = [] → node.handleGetBlocks (writeHashes hashes) = ⟨.ok (), node, []⟩) ∧
    (known K chain hashes ≠ [] → (ServesBlocks (known K chain hashes) (node.handleGetBlocks (writeHashes hashes)) ↔
      4 + ((known K chain hashes).map fun block => 4 + block.bytes.length).sum ≤ czrP2PMaxPayload)) := by
  obtain ⟨-, hl⟩ := load_ok.mp hload
  rw [handleGetBlocks_reply hload hne hlen, ← blockList_length]
  constructor
  · intro hnone
    rw [hnone]
    rfl
  · intro hsome
    have hsize : ∀ block ∈ known K chain hashes, block.bytes.length ≤ czrP2PMaxPayload :=
      fun block hb => hfit block (mem_known hb)
    have hframe := blocksFrame_eq (fun block hb => (hl.known_fits block hb).mono decodeLimit_le) hsize
    have hframes : [Node.blocksFrame (known K chain hashes)] = [blocksFrameOf (known K chain hashes)].map .ok := by
      rw [hframe]
      rfl
    rw [if_neg (by simpa using hsome), hframes]
    constructor
    · intro hserves
      exact sendAll_within hserves.returns _ List.mem_cons_self
    · intro hroom
      have hread : readAll Node.readRelayedBlocks "trailing bytes in relayed blocks payload"
          (blocksFrameOf (known K chain hashes)).payload = .ok (known K chain hashes) := by
        refine readAll_ok.mpr ((readRelayedBlocks_exact _ _ _).mpr ⟨⟨⟨by simpa using hsome, ?_⟩, ?_⟩, by simp [blocksFrameOf]⟩)
        · exact Nat.le_trans (known_length hashes) hlen
        · exact fun block hb => ⟨hl.known_fits block hb, hsize block hb⟩
      rw [reply_ok rfl (by simpa [blocksFrameOf] using hroom)]
      refine ⟨rfl, by simpa [blocksFrameOf] using hroom, [known K chain hashes], ?_, by simp⟩
      rw [List.mapM_cons, hread]
      rfl

/-! ## Frames of a session -/

theorem syncFrame_size (session : P2PSyncSessionId) (part : List Block) :
    (syncBlocksFrameOf session part).payload.length = 20 + (part.map fun block => 4 + block.bytes.length).sum := by
  rw [syncFrameOf_length, blockList_length]
  omega

theorem syncGroups_sublist : ∀ {blocks collected part : List Block}, part ∈ syncGroups blocks collected →
    part.Sublist (collected ++ blocks)
  | [], collected, part, h => by
    rw [syncGroups] at h
    split at h
    · cases h
    · rw [List.mem_singleton.mp h, List.append_nil]
  | block :: rest, collected, part, h => by
    rw [syncGroups] at h
    split at h
    · split at h
      · -- the block is skipped
        exact (syncGroups_sublist h).trans ((List.Sublist.refl _).append (List.sublist_cons_self _ _))
      · rcases List.mem_cons.mp h with rfl | h
        · exact List.sublist_append_left _ _
        · exact (syncGroups_sublist h).trans (List.sublist_append_right _ _)
    · have hsub := syncGroups_sublist h
      rwa [List.append_assoc, List.singleton_append] at hsub

theorem read_groups (session : P2PSyncSessionId) (groups : List (List Block))
    (hlen : ∀ part ∈ groups, part.length ≤ maxBatch)
    (hsize : ∀ part ∈ groups, ∀ block ∈ part, block.bytes.length ≤ czrP2PMaxPayload) :
    ((groups.map (syncBlocksFrameOf session)).mapM fun frame => SyncBlocksMessage.deserializeBinary frame.payload) =
      .ok (groups.map fun part => ⟨session, part.map Block.bytes⟩) := by
  rw [List.mapM_map]
  exact mapM_eq_pure fun part hp => syncBlocks_read session (hlen part hp) (hsize part hp)

theorem lone_fits {groups : List (List Block)} {blocks : List Block}
    (hbytes : (groups.flatMap fun part => part.map Block.bytes) = blocks.map Block.bytes)
    (hparts : ∀ part ∈ groups, 20 + (part.map fun block => 4 + block.bytes.length).sum ≤ czrP2PMaxPayload) :
    ∀ block ∈ blocks, 24 + block.bytes.length ≤ czrP2PMaxPayload := by
  intro block hb
  have hmem := List.mem_map_of_mem (f := Block.bytes) hb
  rw [← hbytes, List.mem_flatMap] at hmem
  obtain ⟨part, hp, hin⟩ := hmem
  obtain ⟨other, ho, he⟩ := List.mem_map.mp hin
  have hone := List.single_le_sum (l := part.map fun block => 4 + block.bytes.length) (fun _ _ => Nat.zero_le _) _
    (List.mem_map_of_mem ho)
  have hroom := hparts part hp
  rw [he] at hone
  omega

/-- Groups arrive exactly when each fits in a frame and together they have the bytes of the blocks. -/
theorem groups_served_iff (session : P2PSyncSessionId) {groups : List (List Block)} {blocks : List Block}
    (hlen : ∀ part ∈ groups, part.length ≤ maxBatch)
    (hsize : ∀ part ∈ groups, ∀ block ∈ part, block.bytes.length ≤ czrP2PMaxPayload) :
    ServesSession session blocks (node.reply (.ok ((groups.map (syncBlocksFrameOf session)).map .ok))) ↔
      (∀ part ∈ groups, 20 + (part.map fun block => 4 + block.bytes.length).sum ≤ czrP2PMaxPayload) ∧
        (groups.flatMap fun part => part.map Block.bytes) = blocks.map Block.bytes := by
  have hread := read_groups session groups hlen hsize
  constructor
  · intro hserves
    have hwithin := sendAll_within hserves.returns
    obtain ⟨messages, hmessages, -, hblocks⟩ := hserves.carried
    rw [reply_ok rfl hwithin] at hmessages
    rw [hread] at hmessages
    cases hmessages
    rw [List.flatMap_map] at hblocks
    refine ⟨?_, hblocks⟩
    intro part hp
    rw [← syncFrame_size session]
    exact hwithin _ (List.mem_map_of_mem hp)
  · rintro ⟨hparts, hblocks⟩
    have hwithin : ∀ frame ∈ groups.map (syncBlocksFrameOf session), frame.payload.length ≤ czrP2PMaxPayload := by
      intro frame hf
      obtain ⟨part, hp, rfl⟩ := List.mem_map.mp hf
      rw [syncFrame_size]
      exact hparts part hp
    rw [reply_ok rfl hwithin]
    refine ⟨rfl, ?_, _, hread, ?_, ?_⟩
    · intro frame hf
      refine ⟨?_, hwithin frame hf⟩
      obtain ⟨part, -, rfl⟩ := List.mem_map.mp hf
      rfl
    · intro message hm
      obtain ⟨part, -, rfl⟩ := List.mem_map.mp hm
      rfl
    · rw [List.flatMap_map]
      exact hblocks

theorem syncGroups_one : ∀ {blocks collected : List Block}, collected ++ blocks ≠ [] →
    (∀ block ∈ blocks, 20 + 4 * (collected ++ blocks).length + block.bytes.length ≤ czrP2PMaxPayload) →
    syncGroups blocks collected = [collected ++ blocks]
  | [], collected, hne, _ => by
    rw [List.append_nil] at hne ⊢
    rw [syncGroups, if_neg (by simpa using hne)]
  | block :: rest, collected, _, hsmall => by
    have hassoc : collected ++ block :: rest = (collected ++ [block]) ++ rest := by simp
    rw [List.forall_mem_cons] at hsmall
    have hcount : collected.length + 1 ≤ (collected ++ block :: rest).length := by simp
    rw [syncGroups, if_neg (by omega), hassoc]
    exact syncGroups_one (by simp) (hassoc ▸ hsmall.2)

theorem session_served_iff (hload : node.storage.load K = .ok chain) (session : P2PSyncSessionId)
    {hashes : List Hash256} (hne : hashes ≠ []) (hlen : hashes.length ≤ maxBatch)
    (hall : ∀ hash ∈ hashes, ∃ block ∈ chain, block.hash K = hash)
    (hsize : ∀ block ∈ known K chain hashes, block.bytes.length ≤ czrP2PMaxPayload) :
    ServesSession session (known K chain hashes)
        (node.handleGetSyncBlocks (writeSyncSessionId session ++ writeHashes hashes)) ↔
      (∀ block ∈ known K chain hashes, 24 + block.bytes.length ≤ czrP2PMaxPayload) ∧
        ∀ part ∈ syncGroups (known K chain hashes) [],
          20 + (part.map fun block => 4 + block.bytes.length).sum ≤ czrP2PMaxPayload := by
  obtain ⟨-, hl⟩ := load_ok.mp hload
  have hcount := Nat.le_trans (@known_length K chain hashes) hlen
  have hgroups := syncFrames_groups session (known K chain hashes) []
    (fun block hb => ⟨(hl.known_fits block hb).mono decodeLimit_le, hsize block hb⟩) hcount
  rw [handleGetSyncBlocks_reply hload session hne hlen, find_known hall]
  dsimp only
  rw [← List.map_nil (f := Block.bytes), hgroups, groups_served_iff session
    (fun part hp => Nat.le_trans (syncGroups_sublist hp).length_le hcount)
    fun part hp block hb => hsize block ((syncGroups_sublist hp).subset hb)]
  constructor
  · rintro ⟨hparts, hblocks⟩
    exact ⟨lone_fits hblocks hparts, hparts⟩
  · rintro ⟨hsingle, hparts⟩
    refine ⟨hparts, ?_⟩
    have hflat := syncGroups_flatten [] hsingle
    rw [List.nil_append] at hflat
    rw [List.flatMap_def, ← List.map_flatten, hflat]

/-- An unknown hash aborts the session with one empty frame; otherwise every requested block arrives if and only if each
fits in a frame and each group of the loop does. If no block is near the limit, they all arrive if and only if they fit in
one frame together. -/
theorem get_sync_blocks_served_iff (hload : node.storage.load K = .ok chain) (session : P2PSyncSessionId)
    {hashes : List Hash256} (hne : hashes ≠ []) (hlen : hashes.length ≤ maxBatch) :
    ((∃ hash ∈ hashes, ∀ block ∈ chain, block.hash K ≠ hash) →
      node.handleGetSyncBlocks (writeSyncSessionId session ++ writeHashes hashes) =
        ⟨.ok (), node, [⟨.syncBlocks, writeSyncSessionId session ++ writeSize 0⟩]⟩) ∧
    ((∀ hash ∈ hashes, ∃ block ∈ chain, block.hash K = hash) →
      (∀ block ∈ known K chain hashes, block.bytes.length ≤ czrP2PMaxPayload) →
      (ServesSession session (known K chain hashes)
          (node.handleGetSyncBlocks (writeSyncSessionId session ++ writeHashes hashes)) ↔
        (∀ block ∈ known K chain hashes, 24 + block.bytes.length ≤ czrP2PMaxPayload) ∧
          ∀ part ∈ syncGroups (known K chain hashes) [],
            20 + (part.map fun block => 4 + block.bytes.length).sum ≤ czrP2PMaxPayload)) ∧
    ((∀ hash ∈ hashes, ∃ block ∈ chain, block.hash K = hash) →
      (∀ block ∈ known K chain hashes, 20 + 4 * hashes.length + block.bytes.length ≤ czrP2PMaxPayload) →
      (ServesSession session (known K chain hashes)
          (node.handleGetSyncBlocks (writeSyncSessionId session ++ writeHashes hashes)) ↔
        20 + ((known K chain hashes).map fun block => 4 + block.bytes.length).sum ≤ czrP2PMaxPayload)) := by
  refine ⟨fun hunknown => ?_, session_served_iff hload session hne hlen, fun hall hsmall => ?_⟩
  · have habort : [Node.syncBlocksFrame session []] = [syncBlocksFrameOf session []].map .ok := rfl
    rw [handleGetSyncBlocks_reply hload session hne hlen, find_unknown hunknown]
    dsimp only
    rw [habort, reply_ok rfl (by simp [syncFrameOf_length, blockList_length, czrP2PMaxPayload])]
    rfl
  · have hcount := @known_length K chain hashes
    have hpos := List.length_pos_of_ne_nil hne
    rw [session_served_iff hload session hne hlen hall fun block hb => by
      have := hsmall block hb
      omega]
    by_cases hnone : known K chain hashes = []
    · rw [hnone]
      simp [syncGroups, czrP2PMaxPayload]
    · have hone : syncGroups (known K chain hashes) [] = [known K chain hashes] :=
        syncGroups_one hnone fun block hb => by
          have := hsmall block hb
          rw [List.nil_append]
          omega
      rw [hone, List.forall_mem_singleton, and_iff_right_iff_imp]
      intro _ block hb
      have := hsmall block hb
      omega

theorem reply_over {frame : P2PFrame} (h : frame.payload.length > czrP2PMaxPayload) :
    node.reply (.ok [.ok frame]) = ⟨fail "P2P payload too large", node, []⟩ := by
  have hsend : ((.ok frame : Result P2PFrame) >>= sendFrame) = fail "P2P payload too large" := if_pos h
  rw [Node.reply, sendAll, hsend]
  rfl

end

def toyRequest : List Hash256 := [toyFirst.hash toyCrypto, toyGenesis.hash toyCrypto]

theorem get_blocks_served_toy : ServesBlocks [toyFirst, toyGenesis]
    ((toyNode [toyGenesis, toyFirst]).handleGetBlocks (writeHashes toyRequest)) := by
  have hknown : known toyCrypto [toyGenesis, toyFirst] toyRequest = [toyFirst, toyGenesis] := by decide +kernel
  have h := (get_blocks_served_iff toyPair_loaded (by decide +kernel) (show toyRequest ≠ [] by simp [toyRequest])
    (by decide)).2
  rw [hknown] at h
  exact (h (by simp)).mpr (by decide +kernel)

theorem get_sync_blocks_served_toy : ServesSession ⟨3, 4⟩ [toyFirst, toyGenesis]
    ((toyNode [toyGenesis, toyFirst]).handleGetSyncBlocks (writeSyncSessionId ⟨3, 4⟩ ++ writeHashes toyRequest)) := by
  have hknown : known toyCrypto [toyGenesis, toyFirst] toyRequest = [toyFirst, toyGenesis] := by decide +kernel
  have h := (get_sync_blocks_served_iff toyPair_loaded ⟨3, 4⟩ (show toyRequest ≠ [] by simp [toyRequest]) (by decide)).2.1
    (by decide +kernel)
  rw [hknown] at h
  exact (h (by decide +kernel)).mpr (by decide +kernel)

/-! ## Five blocks of 900,000 bytes -/

def bulkyRecipient : Bytes := List.replicate 900000 7

def bulkyGenesis : Block := genesisFor toyCrypto bulkyRecipient

def bulkyRequest : List Hash256 := List.replicate 5 (bulkyGenesis.hash toyCrypto)

theorem bulky_length : bulkyGenesis.bytes.length = 900168 := by
  rw [bulkyGenesis, genesisFor_length, bulkyRecipient, List.length_replicate]

theorem bulky_loaded : (toyNode [bulkyGenesis]).storage.load toyCrypto = .ok [bulkyGenesis] := by
  have hlen : bulkyRecipient.length = 900000 := List.length_replicate
  exact load_ok.mpr ⟨rfl, genesisFor_loadable (List.ne_nil_of_length_pos (by omega)) (by omega)⟩

theorem bulky_known : known toyCrypto [bulkyGenesis] bulkyRequest = List.replicate 5 bulkyGenesis := by
  simp [known, bulkyRequest, List.replicate]

theorem bulky_fits : ∀ block ∈ List.replicate 5 bulkyGenesis, block.Fits uint32Max ∧
    block.bytes.length ≤ czrP2PMaxPayload := by
  intro block hb
  rw [List.eq_of_mem_replicate hb, bulky_length]
  obtain ⟨-, hl⟩ := load_ok.mp bulky_loaded
  exact ⟨(hl.stored _ List.mem_cons_self).1.mono decodeLimit_le, by decide⟩

theorem bulky_weight : (blockList (List.replicate 5 bulkyGenesis)).length = 4500864 := by
  rw [blockList_length, List.map_replicate, bulky_length]
  rfl

theorem bulky_blocks_refused : (toyNode [bulkyGenesis]).storage.load toyCrypto = .ok [bulkyGenesis] ∧
    bulkyGenesis.bytes.length ≤ czrP2PMaxPayload ∧
    (toyNode [bulkyGenesis]).handleGetBlocks (writeHashes bulkyRequest) =
      ⟨fail "P2P payload too large", toyNode [bulkyGenesis], []⟩ := by
  refine ⟨bulky_loaded, by rw [bulky_length]; decide, ?_⟩
  rw [handleGetBlocks_reply bulky_loaded (by simp [bulkyRequest]) (by simp [bulkyRequest, maxBatch]), bulky_known,
    if_neg (by simp), blocksFrame_eq (fun block hb => (bulky_fits block hb).1) fun block hb => (bulky_fits block hb).2]
  apply reply_over
  rw [blocksFrameOf, bulky_weight]
  decide

theorem bulky_session_refused : (toyNode [bulkyGenesis]).storage.load toyCrypto = .ok [bulkyGenesis] ∧
    bulkyGenesis.bytes.length ≤ czrP2PMaxPayload ∧
    (toyNode [bulkyGenesis]).handleGetSyncBlocks (writeSyncSessionId ⟨3, 4⟩ ++ writeHashes bulkyRequest) =
      ⟨fail "P2P payload too large", toyNode [bulkyGenesis], []⟩ := by
  refine ⟨bulky_loaded, by rw [bulky_length]; decide, ?_⟩
  have hall : ∀ hash ∈ bulkyRequest, ∃ block ∈ [bulkyGenesis], block.hash toyCrypto = hash := by
    intro hash hmem
    rw [List.eq_of_mem_replicate hmem]
    exact ⟨bulkyGenesis, List.mem_cons_self, rfl⟩
  have hframes := syncFrames_groups ⟨3, 4⟩ (List.replicate 5 bulkyGenesis) [] bulky_fits (by simp [maxBatch])
  -- each block alone is below the limit, so all of them are collected
  have hgroups : syncGroups (List.replicate 5 bulkyGenesis) [] = [List.replicate 5 bulkyGenesis] := by
    simp [List.replicate, syncGroups, bulky_length, czrP2PMaxPayload]
  rw [handleGetSyncBlocks_reply bulky_loaded _ (by simp [bulkyRequest]) (by simp [bulkyRequest, maxBatch]),
    find_known hall, bulky_known]
  dsimp only
  rw [← List.map_nil (f := Block.bytes), hframes, hgroups]
  apply reply_over
  rw [syncFrameOf_length, bulky_weight]
  decide

end Caesar
