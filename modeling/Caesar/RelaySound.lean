import Caesar.ForkSound
import Caesar.NodeSound
import Mathlib.Algebra.Order.BigOperators.Group.List

/-!
# What the relay makes of a message from an honest peer

Every message is read back as it was written. For each handler there is one
equation: what it answers to the message that an honest peer sends.
-/

namespace Caesar

open Codec

theorem mapM_eq_pure {m : Type → Type} [Monad m] [LawfulMonad m] {α β : Type} {f : α → m β} {g : α → β} :
    ∀ {l : List α}, (∀ a ∈ l, f a = pure (g a)) → l.mapM f = pure (l.map g)
  | [], _ => rfl
  | a :: l, h => by
    rw [List.forall_mem_cons] at h
    rw [List.mapM_cons, h.1, mapM_eq_pure h.2, pure_bind, pure_bind, List.map_cons]

/-! ## Messages -/

theorem readPositiveCount_exact {limit : Nat} (what : String) (hl : limit ≤ uint32Max) :
    Exact (readPositiveCount limit what) (fun n => n ≠ 0 ∧ n ≤ limit) writeSize := by
  intro s n rest
  have hcount : readCount limit what s = .ok (n, rest) ↔ n ≤ limit ∧ s = writeSize n ++ rest := readCount_ok hl
  simp only [readCount, andThen_ok, ite_error_ok, Except.ok.injEq, Prod.mk.injEq, Nat.not_lt] at hcount
  simp only [readPositiveCount, andThen_ok, ite_error_ok, Except.ok.injEq, Prod.mk.injEq, not_or, Nat.not_lt]
  refine ⟨?_, ?_⟩
  · intro h
    obtain ⟨v, r, hv, ⟨hz, hle⟩, rfl, rfl⟩ := h
    obtain ⟨hle', hs⟩ := hcount.mp ⟨v, r, hv, hle, rfl, rfl⟩
    exact ⟨⟨hz, hle'⟩, hs⟩
  · intro h
    obtain ⟨v, r, hv, hle, hn, hr⟩ := hcount.mpr ⟨h.1.2, h.2⟩
    exact ⟨v, r, hv, ⟨hn ▸ h.1.1, hle⟩, hn, hr⟩

theorem readCount_exact {limit : Nat} (what : String) (hl : limit ≤ uint32Max) :
    Exact (readCount limit what) (fun n => n ≤ limit) writeSize := fun _ _ _ => readCount_ok hl

theorem readHash_exact : Exact readHash (fun _ => True) (fun hash : Hash256 => hash.1) := by
  intro s x rest
  rw [readHash_ok, true_and]

theorem readHashes_exact {limit : Nat} (what : String) (hl : limit ≤ uint32Max) :
    Exact (readHashes limit what) (fun hashes => (hashes.length ≠ 0 ∧ hashes.length ≤ limit) ∧ ∀ hash ∈ hashes, True)
      writeHashes :=
  (readPositiveCount_exact what hl).counted readHash_exact

theorem readPiece_ok {α : Type} {size : Nat} {f : Bytes → Result α} {s rest : Bytes} {x : α} :
    readPiece size f s = .ok (x, rest) ↔ ∃ data, data.length = size ∧ s = data ++ rest ∧ f data = .ok x := by
  simp only [readPiece, andThen_ok, readRaw_ok]
  refine ⟨?_, ?_⟩
  · intro h
    obtain ⟨data, r, ⟨hl, rfl⟩, h⟩ := h
    cases hf : f data with
    | error e => simp [hf] at h
    | ok y =>
      simp only [hf, Except.ok.injEq, Prod.mk.injEq] at h
      exact ⟨data, hl, by rw [h.2], by rw [hf, h.1]⟩
  · intro h
    obtain ⟨data, hl, rfl, hf⟩ := h
    exact ⟨data, rest, ⟨hl, rfl⟩, by simp [hf]⟩

/-- What a received header is checked for by itself. -/
structure BlockHeader.Announced (K : Crypto) (header : BlockHeader) : Prop where
  version : header.version ≠ 0
  difficulty : ¬ header.difficulty > 256
  pow : validatePow K { header with nonce := 0 }.serializeBinary header.nonce header.difficulty = true

theorem readReceivedHeader_exact (K : Crypto) : Exact (Node.readReceivedHeader K) (BlockHeader.Announced K)
    fun header => writeSized header.serializeBinary := by
  intro s header rest
  simp only [Node.readReceivedHeader, andThen_ok, readU32_ok]
  refine ⟨?_, ?_⟩
  · intro h
    obtain ⟨size, r, rfl, h⟩ := h
    split at h
    · exact absurd h fail_ne_ok
    · rename_i hs
      obtain ⟨data, hl, rfl, hdata⟩ := readPiece_ok.mp h
      obtain ⟨read, hread, hdata⟩ := bind_ok.mp hdata
      simp only [ite_error_ok, Bool.not_eq_true', Bool.not_eq_false, pure_ok] at hdata
      obtain ⟨hv, hd, hp, rfl⟩ := hdata
      rw [headerDeserialize_ok] at hread
      subst hread
      refine ⟨⟨hv, hd, hp⟩, ?_⟩
      rw [writeSized, hl, writeSize, UInt32.ofNat_toNat, List.append_assoc]
  · intro h
    obtain ⟨⟨hv, hd, hp⟩, rfl⟩ := h
    refine ⟨128, header.serializeBinary ++ rest, ?_, ?_⟩
    · rw [writeSized, headerBytes_length, List.append_assoc]
      rfl
    · rw [if_neg (show ¬ (128 : UInt32).toNat ≠ Node.blockHeaderSize by decide)]
      refine readPiece_ok.mpr ⟨header.serializeBinary, headerBytes_length header, rfl, ?_⟩
      refine bind_ok.mpr ⟨header, headerDeserialize_ok.mpr rfl, ?_⟩
      simp [hv, hd, hp]

theorem readReceivedHeaders_exact (K : Crypto) : Exact (Node.readReceivedHeaders K)
    (fun headers => headers.length ≤ Node.maxHeaders ∧ ∀ header ∈ headers, header.Announced K)
    fun headers => (Node.headersFrame headers).payload :=
  (readCount_exact _ (by decide)).counted (readReceivedHeader_exact K)

theorem readRelayedBlock_exact : Exact Node.readRelayedBlock
    (fun block => block.Fits decodeLimit ∧ block.bytes.length ≤ czrP2PMaxPayload) fun block => writeSized block.bytes := by
  intro s block rest
  simp only [Node.readRelayedBlock, andThen_ok, readCount_ok (show czrP2PMaxPayload ≤ uint32Max by decide), readPiece_ok,
    blockDeserialize_ok]
  refine ⟨?_, ?_⟩
  · intro h
    obtain ⟨size, r, ⟨hle, rfl⟩, data, rfl, rfl, hf, rfl⟩ := h
    exact ⟨⟨hf, hle⟩, by rw [writeSized, List.append_assoc]⟩
  · intro h
    obtain ⟨⟨hf, hle⟩, rfl⟩ := h
    exact ⟨_, _, ⟨hle, by rw [writeSized, List.append_assoc]⟩, _, rfl, rfl, hf, rfl⟩

/-- A count and the blocks, as both responses carry them. -/
def blockList (blocks : List Block) : Bytes := writeSize blocks.length ++ blocks.flatMap fun block => writeSized block.bytes

theorem readRelayedBlocks_exact : Exact Node.readRelayedBlocks
    (fun blocks => (blocks.length ≠ 0 ∧ blocks.length ≤ maxBatch) ∧
      ∀ block ∈ blocks, block.Fits decodeLimit ∧ block.bytes.length ≤ czrP2PMaxPayload) blockList :=
  (readPositiveCount_exact _ (by decide)).counted readRelayedBlock_exact

theorem readSyncSessionId_exact : Exact readSyncSessionId (fun _ => True) writeSyncSessionId := by
  intro s id rest
  simp only [readSyncSessionId, andThen_ok, readU64_ok, Except.ok.injEq, Prod.mk.injEq, true_and, writeSyncSessionId,
    List.append_assoc]
  refine ⟨?_, ?_⟩
  · intro h
    obtain ⟨high, r, rfl, low, r', rfl, rfl, rfl⟩ := h
    rfl
  · intro h
    exact ⟨id.high, _, h, id.low, _, rfl, rfl, rfl⟩

theorem getSyncBlocks_read (id : P2PSyncSessionId) {hashes : List Hash256} (hne : hashes ≠ [])
    (hlen : hashes.length ≤ maxBatch) :
    GetSyncBlocksMessage.deserializeBinary (writeSyncSessionId id ++ writeHashes hashes) = .ok ⟨id, hashes⟩ := by
  have hpos : hashes.length ≠ 0 := by simpa using hne
  have hhashes := (readHashes_exact "invalid sync block request count" (show maxBatch ≤ uint32Max by decide)
    (writeHashes hashes) hashes []).mpr ⟨⟨⟨hpos, hlen⟩, fun _ _ => trivial⟩, by simp⟩
  refine readAll_ok.mpr (andThen_ok.mpr ⟨id, _, (readSyncSessionId_exact _ _ _).mpr ⟨trivial, rfl⟩, ?_⟩)
  exact andThen_ok.mpr ⟨hashes, [], hhashes, rfl⟩

theorem readSyncBlock_exact : Exact readSyncBlock (fun data => data.length ≠ 0 ∧ data.length ≤ czrP2PMaxPayload)
    writeSized := by
  intro s data rest
  simp only [readSyncBlock, andThen_ok, readPositiveCount_exact _ (show czrP2PMaxPayload ≤ uint32Max by decide) s,
    readRaw_ok, writeSized, List.append_assoc]
  refine ⟨?_, ?_⟩
  · intro h
    obtain ⟨size, r, ⟨hs, rfl⟩, rfl, rfl⟩ := h
    exact ⟨hs, rfl⟩
  · intro h
    exact ⟨_, _, h, rfl, rfl⟩

theorem syncBlocks_read (id : P2PSyncSessionId) {blocks : List Block} (hlen : blocks.length ≤ maxBatch)
    (hsize : ∀ block ∈ blocks, block.bytes.length ≤ czrP2PMaxPayload) :
    SyncBlocksMessage.deserializeBinary (writeSyncSessionId id ++ blockList blocks) = .ok ⟨id, blocks.map Block.bytes⟩ := by
  have hblocks := ((readCount_exact "invalid sync block response count" (show maxBatch ≤ uint32Max by decide)).counted
    readSyncBlock_exact (blockList blocks) (blocks.map Block.bytes) []).mpr ⟨⟨by simpa using hlen, ?_⟩, ?_⟩
  · obtain ⟨n, r, hn, hr⟩ := andThen_ok.mp hblocks
    refine readAll_ok.mpr (andThen_ok.mpr ⟨id, _, (readSyncSessionId_exact _ _ _).mpr ⟨trivial, rfl⟩, ?_⟩)
    exact andThen_ok.mpr ⟨n, r, hn, andThen_ok.mpr ⟨_, [], hr, rfl⟩⟩
  · intro data hdata
    obtain ⟨block, hb, rfl⟩ := List.mem_map.mp hdata
    exact ⟨Nat.pos_iff_ne_zero.mp (blockBytes_pos block), hsize block hb⟩
  · simp [blockList, List.flatMap_map]

/-! ## Batches -/

section
variable {α : Type} {max : Nat}

theorem batches_flatten (hmax : 0 < max) : ∀ {fuel : Nat} {xs : List α}, xs.length ≤ fuel →
    (batches max fuel xs).flatten = xs
  | 0, xs, h => by
    rw [List.eq_nil_of_length_eq_zero (Nat.le_zero.mp h)]
    rfl
  | fuel + 1, [], _ => rfl
  | fuel + 1, x :: xs, h => by
    have hrest : ((x :: xs).drop max).length ≤ fuel := by
      rw [List.length_drop]
      simp only [List.length_cons] at h ⊢
      omega
    rw [batches, List.flatten_cons, batches_flatten hmax hrest, List.take_append_drop]
    simp

theorem batches_mem (hmax : 0 < max) : ∀ {fuel : Nat} {xs batch : List α}, batch ∈ batches max fuel xs →
    batch ≠ [] ∧ batch.length ≤ max
  | 0, _, _, h => by cases h
  | fuel + 1, [], _, h => by cases h
  | fuel + 1, x :: xs, batch, h => by
    rw [batches] at h
    · rcases List.mem_cons.mp h with rfl | h
      · refine ⟨?_, List.length_take_le ..⟩
        intro he
        have := congrArg List.length he
        rw [List.length_take, List.length_nil, List.length_cons] at this
        omega
      · exact batches_mem hmax h
    · simp

theorem batches_map {β : Type} (f : α → β) : ∀ (fuel : Nat) (xs : List α),
    batches max fuel (xs.map f) = (batches max fuel xs).map (List.map f)
  | 0, _ => rfl
  | fuel + 1, [] => rfl
  | fuel + 1, x :: xs => by
    rw [List.map_cons, batches, batches, ← List.map_cons, ← List.map_take, ← List.map_drop, batches_map f fuel]
    · rfl
    · simp
    · simp

end

/-- Every block of the list, in pieces of at most one request each. -/
abbrev requests (blocks : List Block) : List (List Block) := batches maxBatch blocks.length blocks

theorem requests_flatten (blocks : List Block) : (requests blocks).flatten = blocks :=
  batches_flatten (by decide) (Nat.le_refl _)

theorem requests_mem {blocks batch : List Block} (h : batch ∈ requests blocks) : batch ≠ [] ∧ batch.length ≤ maxBatch :=
  batches_mem (by decide) h

theorem mem_of_request {blocks batch : List Block} (h : batch ∈ requests blocks) {block : Block} (hb : block ∈ batch) :
    block ∈ blocks := by
  rw [← requests_flatten blocks]
  exact List.mem_flatten.mpr ⟨batch, h, hb⟩

/-! ## Sending -/

theorem writeHashes_length (hashes : List Hash256) : (writeHashes hashes).length = 4 + 32 * hashes.length := by
  have hmap : hashes.map (fun hash => hash.1.length) = hashes.map fun _ => 32 :=
    List.map_congr_left fun hash _ => hash.2
  rw [writeHashes, List.length_append, writeSize_length, List.length_flatMap, hmap]
  simp
  omega

theorem writeSyncSessionId_length (id : P2PSyncSessionId) : (writeSyncSessionId id).length = 16 := by
  simp [writeSyncSessionId]

theorem headersFrame_length (headers : List BlockHeader) :
    (Node.headersFrame headers).payload.length = 4 + 132 * headers.length := by
  simp [Node.headersFrame, List.length_flatMap, writeSized]
  omega

section
variable {K : Crypto} {node : Node K} {chain : List Block} {choice : Node.Choice K} {id : UInt64}

theorem sendAll_ok : ∀ {frames : List P2PFrame}, (∀ frame ∈ frames, frame.payload.length ≤ czrP2PMaxPayload) →
    sendAll (frames.map .ok) = (frames, .ok ())
  | [], _ => rfl
  | frame :: rest, h => by
    rw [List.forall_mem_cons] at h
    have hsend : ((.ok frame : Result P2PFrame) >>= sendFrame) = .ok frame := if_neg (Nat.not_lt.mpr h.1)
    rw [List.map_cons, sendAll, hsend, sendAll_ok h.2]

theorem reply_ok {built : Result (List (Result P2PFrame))} {frames : List P2PFrame} (hb : built = .ok (frames.map .ok))
    (h : ∀ frame ∈ frames, frame.payload.length ≤ czrP2PMaxPayload) : node.reply built = ⟨.ok (), node, frames⟩ := by
  rw [hb, Node.reply, sendAll_ok h]

theorem readFrames_replies {α : Type} {frame : α → P2PFrame} {out : α → List P2PFrame} : ∀ {l : List α},
    (∀ x ∈ l, node.handleFrame choice id (frame x) = ⟨.ok (), node, out x⟩) →
    node.readFrames choice id (l.map frame) = ⟨.ok (), node, l.flatMap out⟩
  | [], _ => rfl
  | x :: l, h => by
    rw [List.forall_mem_cons] at h
    simp only [List.map_cons, Node.readFrames, h.1, readFrames_replies h.2, List.flatMap_cons]

theorem readFrames_singleton (frame : P2PFrame) :
    node.readFrames choice id [frame] = node.handleFrame choice id frame := by
  simp only [Node.readFrames, List.append_nil]
  split
  · rename_i e he
    rw [← he]
  · rename_i he
    rw [← he]

/-! ## Headers -/

theorem requestHeaders_eq (hload : node.storage.load K = .ok chain) : node.requestHeaders =
    ⟨.ok (), node, [⟨.getHeaders, writeHashes (Node.headerLocators K chain)⟩]⟩ := by
  obtain ⟨hstore, hl⟩ := load_ok.mp hload
  obtain ⟨u, t, hr⟩ := hl.replay
  have hlen := headerLocators_length (K := K) chain
  have hframe : Node.makeGetHeadersFrame (Node.headerLocators K chain) =
      .ok ⟨.getHeaders, writeHashes (Node.headerLocators K chain)⟩ := by
    refine if_neg ?_
    simpa [headerLocators_ne_nil hr.ne_nil] using hlen
  have hsize : (writeHashes (Node.headerLocators K chain)).length ≤ czrP2PMaxPayload := by
    rw [writeHashes_length]
    unfold Node.maxLocators at hlen
    unfold czrP2PMaxPayload
    omega
  refine reply_ok ?_ (by simpa using hsize)
  rw [if_neg (by simp [hstore])]
  refine bind_ok.mpr ⟨chain, hload, ?_⟩
  rw [if_neg (by simp [hr.ne_nil]), hframe]
  rfl

theorem handleGetHeaders_eq (hload : node.storage.load K = .ok chain) {locators : List Hash256} (hne : locators ≠ [])
    (hlen : locators.length ≤ Node.maxLocators) : node.handleGetHeaders (writeHashes locators) =
      ⟨.ok (), node, [Node.headersFrame (Node.headersAfter K chain locators)]⟩ := by
  obtain ⟨hstore, hl⟩ := load_ok.mp hload
  obtain ⟨u, t, hr⟩ := hl.replay
  have hread : readAll (readHashes Node.maxLocators "invalid header locator count") "trailing bytes in getheaders payload"
      (writeHashes locators) = .ok locators :=
    readAll_ok.mpr ((readHashes_exact _ (by decide) _ _ _).mpr ⟨⟨⟨by simpa using hne, hlen⟩, fun _ _ => trivial⟩, by simp⟩)
  have hcount : (Node.headersAfter K chain locators).length ≤ Node.maxHeaders := by
    unfold Node.headersAfter
    split
    · exact Nat.zero_le _
    · rw [List.length_map]
      exact List.length_take_le ..
  have hsize : (Node.headersFrame (Node.headersAfter K chain locators)).payload.length ≤ czrP2PMaxPayload := by
    rw [headersFrame_length]
    unfold Node.maxHeaders at hcount
    unfold czrP2PMaxPayload
    omega
  refine reply_ok (bind_ok.mpr ⟨locators, hread, ?_⟩) (by simpa using hsize)
  rw [if_neg (by simp [hstore])]
  refine bind_ok.mpr ⟨chain, hload, ?_⟩
  rw [if_neg (by simp [hr.ne_nil])]
  rfl

theorem Replay.announced {u : UTXOSet} {t : UInt64} (h : Replay K chain u t) {block : Block} (hb : block ∈ chain) :
    block.header.Announced K := by
  have hbasic := h.basic block hb
  have hd := basic_difficulty hbasic
  unfold Block.validateBasic at hbasic
  split at hbasic
  · simp at hbasic
  · rename_i hv
    split at hbasic
    · simp at hbasic
    · rename_i hp
      refine ⟨hv, ?_, by simpa [Block.validatePow, Block.powHeader] using hp⟩
      rw [gt_iff_lt, UInt32.lt_iff_toNat_lt]
      exact Nat.not_lt.mpr hd

theorem receiveHeaders_linked (hload : node.storage.load K = .ok chain) {ancestor tip first : Block} {rest : List Block}
    (hann : ∀ block ∈ first :: rest, block.header.Announced K) (hlen : (first :: rest).length ≤ Node.maxHeaders)
    (hlink : Linked K ancestor (first :: rest)) (hmem : ancestor ∈ chain) (htip : chain.getLast? = some tip)
    (hsame : ancestor.hash K = tip.hash K → ancestor = tip) :
    node.receiveHeaders (Node.headersFrame ((first :: rest).map Block.header)).payload =
      .ok (some ((first :: rest).map Block.header, decide (ancestor.hash K = tip.hash K))) := by
  obtain ⟨hstore, -⟩ := load_ok.mp hload
  have hread : readAll (Node.readReceivedHeaders K) "trailing bytes in headers payload"
      (Node.headersFrame ((first :: rest).map Block.header)).payload = .ok ((first :: rest).map Block.header) := by
    refine readAll_ok.mpr ((readReceivedHeaders_exact K _ _ _).mpr ⟨⟨by simpa using hlen, fun header hh => ?_⟩, by simp⟩)
    obtain ⟨block, hb, rfl⟩ := List.mem_map.mp hh
    exact hann block hb
  have hcheck : Node.checkReceivedHeaders K chain tip first.header ((first :: rest).map Block.header) =
      .ok (decide (ancestor.hash K = tip.hash K)) := by
    unfold Node.checkReceivedHeaders
    rw [hlink.1]
    by_cases hd : ancestor.hash K = tip.hash K
    · obtain rfl := hsame hd
      rw [if_pos rfl, checkHeaders_linked _ _ hlink]
      simp [bind, Except.bind, pure, Except.pure]
    · have hany : (chain.any fun block => block.hash K = ancestor.hash K) = true :=
        List.any_eq_true.mpr ⟨ancestor, hmem, by simp⟩
      rw [if_neg hd, hany, if_neg (by simp), hlink.2.1, checkHeaders_linked _ _ hlink]
      simp [hd, bind, Except.bind, pure, Except.pure]
  refine bind_ok.mpr ⟨_, hread, ?_⟩
  rw [List.map_cons, List.head?_cons]
  dsimp only
  rw [if_neg (by simp [hstore])]
  refine bind_ok.mpr ⟨chain, hload, ?_⟩
  rw [htip]
  exact bind_ok.mpr ⟨_, hcheck, rfl⟩

theorem receiveHeaders_nil : node.receiveHeaders (Node.headersFrame []).payload = .ok none := by
  have hread : readAll (Node.readReceivedHeaders K) "trailing bytes in headers payload" (Node.headersFrame []).payload =
      .ok [] := readAll_ok.mpr ((readReceivedHeaders_exact K _ _ _).mpr ⟨⟨Nat.zero_le _, by simp⟩, by simp⟩)
  rw [Node.receiveHeaders, hread]
  rfl

/-! ## Requests for blocks -/

theorem request_length {batch : List Block} (h : batch.length ≤ maxBatch) :
    16 + (writeHashes (batch.map (Block.hash K))).length ≤ czrP2PMaxPayload := by
  rw [writeHashes_length, List.length_map]
  unfold maxBatch at h
  unfold czrP2PMaxPayload
  omega

def getBlocksFrame (K : Crypto) (batch : List Block) : P2PFrame := ⟨.getBlocks, writeHashes (batch.map (Block.hash K))⟩

theorem requestBlocks_eq (blocks : List Block) : Node.requestBlocks (blocks.map (Block.hash K)) =
    ((requests blocks).map (getBlocksFrame K)).map .ok := by
  rw [Node.requestBlocks, List.length_map, batches_map, List.map_map, List.map_map]
  refine List.map_congr_left fun batch hb => if_neg ?_
  simpa using requests_mem hb

def getSyncBlocksFrame (K : Crypto) (session : P2PSyncSessionId) (batch : List Block) : P2PFrame :=
  ⟨.getSyncBlocks, writeSyncSessionId session ++ writeHashes (batch.map (Block.hash K))⟩

theorem requestSyncBlocks_eq (session : P2PSyncSessionId) (blocks : List Block) :
    Node.requestSyncBlocks session (blocks.map (Block.hash K)) =
      ((requests blocks).map (getSyncBlocksFrame K session)).map .ok := by
  rw [Node.requestSyncBlocks, List.length_map, batches_map, List.map_map, List.map_map]
  refine List.map_congr_left fun batch hb => ?_
  obtain ⟨hne, hlen⟩ := requests_mem hb
  simp only [Function.comp_apply, Node.makeGetSyncBlocksFrame, GetSyncBlocksMessage.serializeBinary]
  rw [if_neg (by simpa using hne), if_neg (by simpa using hlen)]
  rfl

theorem handleHeaders_none {session : P2PSyncSessionId} {payload : Bytes} (h : node.receiveHeaders payload = .ok none) :
    node.handleHeaders id session payload = ⟨.ok (), node, []⟩ := by
  rw [Node.handleHeaders, h]

theorem handleHeaders_direct {session : P2PSyncSessionId} {payload : Bytes} {blocks : List Block}
    (h : node.receiveHeaders payload = .ok (some (blocks.map Block.header, true))) :
    node.handleHeaders id session payload = ⟨.ok (), node, (requests blocks).map (getBlocksFrame K)⟩ := by
  rw [Node.handleHeaders, h]
  dsimp only
  rw [List.map_map]
  show node.reply (.ok (Node.requestBlocks (blocks.map (Block.hash K)))) = _
  refine reply_ok (by rw [requestBlocks_eq]) fun frame hf => ?_
  obtain ⟨batch, hb, rfl⟩ := List.mem_map.mp hf
  exact Nat.le_trans (Nat.le_add_left _ _) (request_length (requests_mem hb).2)

theorem handleHeaders_pending {session : P2PSyncSessionId} {payload : Bytes} {headers : List BlockHeader}
    (h : node.receiveHeaders payload = .ok (some (headers, false))) (hp : (node.pendingChainSyncs id).isSome = true) :
    node.handleHeaders id session payload = ⟨.ok (), node, []⟩ := by
  rw [Node.handleHeaders, h]
  exact if_pos hp

theorem handleHeaders_fork {session : P2PSyncSessionId} {payload : Bytes} {blocks : List Block}
    (h : node.receiveHeaders payload = .ok (some (blocks.map Block.header, false)))
    (hp : node.pendingChainSyncs id = none) : node.handleHeaders id session payload =
      ⟨.ok (), node.setPending id (some ⟨session, blocks.map Block.header, blocks.map fun _ => none⟩),
        (requests blocks).map (getSyncBlocksFrame K session)⟩ := by
  have hsent : sendAll (Node.requestSyncBlocks session (blocks.map (Block.hash K))) =
      ((requests blocks).map (getSyncBlocksFrame K session), .ok ()) := by
    rw [requestSyncBlocks_eq]
    refine sendAll_ok fun frame hf => ?_
    obtain ⟨batch, hb, rfl⟩ := List.mem_map.mp hf
    rw [getSyncBlocksFrame, List.length_append, writeSyncSessionId_length]
    exact request_length (requests_mem hb).2
  have hhashes : (blocks.map Block.header).map (fun header => header.hash K) = blocks.map (Block.hash K) := by
    rw [List.map_map]
    rfl
  rw [Node.handleHeaders, h]
  dsimp only
  rw [Node.startSession, hp, if_neg (by simp), hhashes, hsent, List.map_map]
  rfl

/-! ## Serving blocks -/

/-- For each hash in turn, the first block of the chain that has it. -/
def known (K : Crypto) (chain : List Block) (hashes : List Hash256) : List Block :=
  hashes.filterMap fun hash => chain.find? fun block => block.hash K = hash

theorem chainIndex_find (chain : List Block) (hash : Hash256) :
    ((Node.chainIndex K chain hash).bind fun i => chain[i]?) = chain.find? fun block => block.hash K = hash := by
  unfold Node.chainIndex
  induction chain with
  | nil => rfl
  | cons block chain ih =>
    by_cases h : block.hash K = hash
    · simp [List.findIdx?_cons, h]
    · simp only [List.findIdx?_cons, List.find?_cons, h, decide_false, ← ih]
      cases chain.findIdx? fun block => block.hash K = hash with
      | none => rfl
      | some i => simp

theorem mem_known {hashes : List Hash256} {block : Block} (h : block ∈ known K chain hashes) : block ∈ chain := by
  obtain ⟨hash, -, hfind⟩ := List.mem_filterMap.mp h
  exact List.mem_of_find?_eq_some hfind

theorem known_length (hashes : List Hash256) : (known K chain hashes).length ≤ hashes.length :=
  List.length_filterMap_le _ _

/-- The blocks are on the chain, each found by its hash. -/
def Serves (K : Crypto) (chain blocks : List Block) : Prop :=
  ∀ block ∈ blocks, ((Node.chainIndex K chain (block.hash K)).bind fun i => chain[i]?) = some block

theorem serves_of {u : UTXOSet} {t : UInt64} (h : Replay K chain u t)
    (hcf : CollisionFree K (chain.flatMap (Block.strings K))) {blocks : List Block} (hsub : ∀ block ∈ blocks, block ∈ chain) :
    Serves K chain blocks := by
  intro block hb
  obtain ⟨i, hi⟩ := List.mem_iff_getElem?.mp (hsub block hb)
  rw [chainIndex_eq h hcf hi, Option.bind_some, hi]

theorem Serves.known {batch : List Block} (h : Serves K chain batch) :
    known K chain (batch.map (Block.hash K)) = batch := by
  rw [Caesar.known, List.filterMap_map]
  refine (List.filterMap_congr fun block hb => ?_).trans List.filterMap_some
  rw [Function.comp_apply, ← chainIndex_find]
  exact h block hb

theorem encodeBlock_ok (what : String) {block : Block} (hf : block.Fits uint32Max)
    (hsize : block.bytes.length ≤ czrP2PMaxPayload) : encodeBlock what block = .ok block.bytes := by
  have hne : block.bytes ≠ [] := List.ne_nil_of_length_pos (blockBytes_pos block)
  refine bind_ok.mpr ⟨block.bytes, blockSerialize_ok.mpr ⟨hf, rfl⟩, ?_⟩
  rw [if_neg (by simpa [hne] using hsize)]
  rfl

def blocksFrameOf (batch : List Block) : P2PFrame := ⟨.blocks, blockList batch⟩

theorem blockList_length (blocks : List Block) :
    (blockList blocks).length = 4 + (blocks.map fun block => 4 + block.bytes.length).sum := by
  simp [blockList, List.length_flatMap, writeSized]

theorem length_le_blockList {blocks : List Block} {block : Block} (h : block ∈ blocks) :
    8 + block.bytes.length ≤ (blockList blocks).length := by
  have := List.single_le_sum (l := blocks.map fun block => 4 + block.bytes.length) (fun _ _ => Nat.zero_le _) _
    (List.mem_map_of_mem h)
  rw [blockList_length]
  omega

theorem blocksFrame_eq {blocks : List Block} (hfits : ∀ block ∈ blocks, block.Fits uint32Max)
    (hsize : ∀ block ∈ blocks, block.bytes.length ≤ czrP2PMaxPayload) :
    Node.blocksFrame blocks = .ok (blocksFrameOf blocks) := by
  have hencoded : blocks.mapM (encodeBlock "block too large for getblocks response") = .ok (blocks.map Block.bytes) :=
    mapM_eq_pure fun block hb => encodeBlock_ok _ (hfits block hb) (hsize block hb)
  refine bind_ok.mpr ⟨_, hencoded, ?_⟩
  rw [List.flatMap_map]
  rfl

theorem handleGetBlocks_reply (hload : node.storage.load K = .ok chain) {hashes : List Hash256} (hne : hashes ≠ [])
    (hlen : hashes.length ≤ maxBatch) : node.handleGetBlocks (writeHashes hashes) =
      node.reply (.ok (if (known K chain hashes).isEmpty then [] else [Node.blocksFrame (known K chain hashes)])) := by
  obtain ⟨hstore, -⟩ := load_ok.mp hload
  have hread : readAll (readHashes maxBatch "invalid getblocks request count") "trailing bytes in getblocks payload"
      (writeHashes hashes) = .ok hashes :=
    readAll_ok.mpr ((readHashes_exact _ (by decide) _ _ _).mpr
      ⟨⟨⟨by simpa using hne, hlen⟩, fun _ _ => trivial⟩, by simp⟩)
  unfold Node.handleGetBlocks
  refine congrArg node.reply (bind_ok.mpr ⟨_, hread, ?_⟩)
  rw [if_neg (by simp [hstore])]
  refine bind_ok.mpr ⟨chain, hload, ?_⟩
  simp only [chainIndex_find]
  show (if (known K chain hashes).isEmpty then pure [] else pure [Node.blocksFrame (known K chain hashes)]) = _
  split <;> rfl

theorem handleGetBlocks_eq (hload : node.storage.load K = .ok chain) {batch : List Block} (hserve : Serves K chain batch)
    (hne : batch ≠ []) (hlen : batch.length ≤ maxBatch) (hfits : ∀ block ∈ batch, block.Fits uint32Max)
    (hsize : (blockList batch).length ≤ czrP2PMaxPayload) :
    node.handleGetBlocks (getBlocksFrame K batch).payload = ⟨.ok (), node, [blocksFrameOf batch]⟩ := by
  have hframe : Node.blocksFrame batch = .ok (blocksFrameOf batch) := by
    refine blocksFrame_eq hfits fun block hb => ?_
    have := length_le_blockList hb
    omega
  rw [getBlocksFrame, handleGetBlocks_reply hload (by simpa using hne) (by simpa using hlen), hserve.known,
    if_neg (by simpa using hne), hframe]
  exact reply_ok rfl (by simpa [blocksFrameOf] using hsize)

def syncBlocksFrameOf (session : P2PSyncSessionId) (part : List Block) : P2PFrame :=
  ⟨.syncBlocks, writeSyncSessionId session ++ blockList part⟩

theorem syncBlocksFrame_eq (session : P2PSyncSessionId) {part : List Block} (hlen : part.length ≤ maxBatch)
    (hsize : ∀ block ∈ part, block.bytes.length ≤ czrP2PMaxPayload) :
    Node.syncBlocksFrame session (part.map Block.bytes) = .ok (syncBlocksFrameOf session part) := by
  have hwritten : (part.map Block.bytes).mapM writeSyncBlock = .ok ((part.map Block.bytes).map writeSized) := by
    refine mapM_eq_pure fun data hd => ?_
    obtain ⟨block, hb, rfl⟩ := List.mem_map.mp hd
    have hne : block.bytes ≠ [] := List.ne_nil_of_length_pos (blockBytes_pos block)
    rw [writeSyncBlock, if_neg (by simpa using hne), if_neg (Nat.not_lt.mpr (hsize block hb))]
    rfl
  have hmessage : SyncBlocksMessage.serializeBinary ⟨session, part.map Block.bytes⟩ =
      .ok (writeSyncSessionId session ++ blockList part) := by
    rw [SyncBlocksMessage.serializeBinary, if_neg (by simpa using hlen)]
    refine bind_ok.mpr ⟨_, hwritten, ?_⟩
    simp only [List.length_map, List.map_map, ← List.flatMap_def]
    rfl
  exact bind_ok.mpr ⟨_, hmessage, rfl⟩

/-- How the loop divides the blocks into frames: a block joins the collected ones unless it is near the limit itself. -/
def syncGroups : List Block → List Block → List (List Block)
  | [], collected => if collected.isEmpty then [] else [collected]
  | block :: rest, collected =>
    if 16 + 4 + (collected.length + 1) * 4 + block.bytes.length > czrP2PMaxPayload then
      if collected.isEmpty then syncGroups rest collected else collected :: syncGroups rest [block]
    else syncGroups rest (collected ++ [block])

theorem syncFrames_groups (session : P2PSyncSessionId) : ∀ (blocks collected : List Block),
    (∀ block ∈ collected ++ blocks, block.Fits uint32Max ∧ block.bytes.length ≤ czrP2PMaxPayload) →
    (collected ++ blocks).length ≤ maxBatch →
    Node.syncFrames session blocks (collected.map Block.bytes) =
      ((syncGroups blocks collected).map (syncBlocksFrameOf session)).map .ok
  | [], collected, hall, hlen => by
    rw [List.append_nil] at hall hlen
    rw [Node.syncFrames, syncGroups]
    by_cases hnil : collected = []
    · simp [hnil]
    · rw [if_neg (by simpa using hnil), if_neg (by simpa using hnil),
        syncBlocksFrame_eq session hlen fun block hb => (hall block hb).2]
      rfl
  | block :: rest, collected, hall, hlen => by
    have hblock := hall block (List.mem_append_right _ List.mem_cons_self)
    have hencode := encodeBlock_ok "sync block exceeds payload limit" hblock.1 hblock.2
    rw [Node.syncFrames, syncGroups, hencode]
    dsimp only
    rw [List.length_map]
    have hempty : (collected.map Block.bytes).isEmpty = collected.isEmpty := by cases collected <;> rfl
    rw [hempty]
    by_cases hover : 16 + 4 + (collected.length + 1) * 4 + block.bytes.length > czrP2PMaxPayload
    · rw [if_pos hover, if_pos hover]
      by_cases hnil : collected.isEmpty = true
      · rw [if_pos hnil, if_pos hnil]
        refine syncFrames_groups session rest collected ?_ ?_
        · intro b hb
          apply hall
          rw [List.mem_append] at hb ⊢
          exact hb.imp_right (List.mem_cons_of_mem _)
        · rw [List.length_append] at hlen ⊢
          rw [List.length_cons] at hlen
          omega
      · -- the collected blocks go out, and this block starts the next frame
        rw [List.length_append, List.length_cons] at hlen
        rw [if_neg hnil, if_neg hnil, List.map_cons, List.map_cons,
          syncBlocksFrame_eq session (by omega) fun b hb => (hall b (List.mem_append_left _ hb)).2]
        refine congrArg _ (syncFrames_groups session rest [block] ?_ ?_)
        · exact fun b hb => hall b (List.mem_append_right _ hb)
        · rw [List.singleton_append, List.length_cons]
          have hpos := List.length_pos_of_ne_nil (by simpa using hnil)
          omega
    · rw [if_neg hover, if_neg hover, ← List.map_singleton, ← List.map_append]
      exact syncFrames_groups session rest (collected ++ [block]) (by simpa using hall) (by simpa using hlen)

/-- No block is left out when each fits in a frame of its own. -/
theorem syncGroups_flatten : ∀ {blocks : List Block} (collected : List Block),
    (∀ block ∈ blocks, 24 + block.bytes.length ≤ czrP2PMaxPayload) →
    (syncGroups blocks collected).flatten = collected ++ blocks
  | [], collected, _ => by
    rw [syncGroups]
    by_cases hnil : collected = []
    · simp [hnil]
    · simp [hnil]
  | block :: rest, collected, h => by
    rw [List.forall_mem_cons] at h
    rw [syncGroups]
    by_cases hover : 16 + 4 + (collected.length + 1) * 4 + block.bytes.length > czrP2PMaxPayload
    · have hne : collected.isEmpty = false := by
        cases collected with
        | nil =>
          rw [List.length_nil] at hover
          have := h.1
          omega
        | cons first more => rfl
      rw [if_pos hover, hne, if_neg (by simp), List.flatten_cons, syncGroups_flatten _ h.2, List.singleton_append]
    · rw [if_neg hover, syncGroups_flatten _ h.2, List.append_assoc, List.singleton_append]

theorem syncGroups_ne_nil : ∀ {blocks collected part : List Block}, part ∈ syncGroups blocks collected → part ≠ []
  | [], collected, part, h => by
    rw [syncGroups] at h
    split at h
    · cases h
    · rename_i hne
      rw [List.mem_singleton.mp h]
      simpa using hne
  | block :: rest, collected, part, h => by
    rw [syncGroups] at h
    split at h
    · split at h
      · exact syncGroups_ne_nil h
      · rename_i hne
        rcases List.mem_cons.mp h with rfl | h
        · simpa using hne
        · exact syncGroups_ne_nil h
    · exact syncGroups_ne_nil h

/-- The frames carry the blocks in order, and none is empty. -/
theorem syncFrames_parts (session : P2PSyncSessionId) (blocks : List Block)
    (hall : ∀ block ∈ blocks, block.Fits uint32Max ∧ 24 + block.bytes.length ≤ czrP2PMaxPayload)
    (hlen : blocks.length ≤ maxBatch) :
    ∃ parts : List (List Block), Node.syncFrames session blocks [] = (parts.map (syncBlocksFrameOf session)).map .ok ∧
      parts.flatten = blocks ∧ ∀ part ∈ parts, part ≠ [] ∧ part.length ≤ maxBatch := by
  have hflat := syncGroups_flatten [] fun block hb => (hall block hb).2
  refine ⟨syncGroups blocks [], ?_, hflat, ?_⟩
  · refine syncFrames_groups session blocks [] (fun block hb => ⟨(hall block hb).1, ?_⟩) hlen
    have := (hall block hb).2
    omega
  · intro part hpart
    refine ⟨syncGroups_ne_nil hpart, Nat.le_trans ?_ hlen⟩
    have hsub := (List.sublist_flatten_of_mem hpart).length_le
    rwa [hflat] at hsub

theorem find_known {hashes : List Hash256} (hall : ∀ hash ∈ hashes, ∃ block ∈ chain, block.hash K = hash) :
    (hashes.mapM fun hash => chain.find? fun block => block.hash K = hash) = some (known K chain hashes) := by
  induction hashes with
  | nil => rfl
  | cons hash hashes ih =>
    rw [List.forall_mem_cons] at hall
    obtain ⟨block, hb, hh⟩ := hall.1
    obtain ⟨found, hfind⟩ := Option.isSome_iff_exists.mp
      (List.find?_isSome.mpr ⟨block, hb, decide_eq_true hh⟩ : (chain.find? fun block => block.hash K = hash).isSome)
    rw [List.mapM_cons, ih hall.2, hfind]
    simp [known, hfind]

theorem find_unknown {hashes : List Hash256} (h : ∃ hash ∈ hashes, ∀ block ∈ chain, block.hash K ≠ hash) :
    (hashes.mapM fun hash => chain.find? fun block => block.hash K = hash) = none := by
  induction hashes with
  | nil =>
    obtain ⟨_, hmem, -⟩ := h
    cases hmem
  | cons first hashes ih =>
    obtain ⟨hash, hmem, hnone⟩ := h
    rw [List.mapM_cons]
    rcases List.mem_cons.mp hmem with rfl | hmem
    · rw [List.find?_eq_none.mpr (by simpa using hnone)]
      rfl
    · rw [ih ⟨hash, hmem, hnone⟩]
      cases chain.find? fun block => block.hash K = first <;> rfl

theorem handleGetSyncBlocks_reply (hload : node.storage.load K = .ok chain) (session : P2PSyncSessionId)
    {hashes : List Hash256} (hne : hashes ≠ []) (hlen : hashes.length ≤ maxBatch) :
    node.handleGetSyncBlocks (writeSyncSessionId session ++ writeHashes hashes) =
      node.reply (.ok (match hashes.mapM fun hash => chain.find? fun block => block.hash K = hash with
        | none => [Node.syncBlocksFrame session []]
        | some requested => Node.syncFrames session requested [])) := by
  obtain ⟨hstore, -⟩ := load_ok.mp hload
  unfold Node.handleGetSyncBlocks
  refine congrArg node.reply (bind_ok.mpr ⟨_, getSyncBlocks_read session hne hlen, ?_⟩)
  rw [if_neg (by simp [hstore])]
  refine bind_ok.mpr ⟨chain, hload, ?_⟩
  simp only [chainIndex_find]
  cases hashes.mapM fun hash => chain.find? fun block => block.hash K = hash <;> rfl

theorem handleGetSyncBlocks_eq (hload : node.storage.load K = .ok chain) (session : P2PSyncSessionId) {batch : List Block}
    (hserve : Serves K chain batch) (hne : batch ≠ []) (hlen : batch.length ≤ maxBatch)
    {frames : List P2PFrame} (hframes : Node.syncFrames session batch [] = frames.map .ok)
    (hsize : ∀ frame ∈ frames, frame.payload.length ≤ czrP2PMaxPayload) :
    node.handleGetSyncBlocks (getSyncBlocksFrame K session batch).payload = ⟨.ok (), node, frames⟩ := by
  have hall : ∀ hash ∈ batch.map (Block.hash K), ∃ block ∈ chain, block.hash K = hash := by
    intro hash hmem
    obtain ⟨block, hb, rfl⟩ := List.mem_map.mp hmem
    have hfound := hserve block hb
    rw [chainIndex_find] at hfound
    exact ⟨block, List.mem_of_find?_eq_some hfound, rfl⟩
  rw [getSyncBlocksFrame, handleGetSyncBlocks_reply hload session (by simpa using hne) (by simpa using hlen),
    find_known hall, hserve.known]
  exact reply_ok (congrArg Except.ok hframes) hsize

/-! ## Receiving an extension -/

theorem relayBlock_eq {st : Node.RelayState} {block : Block} {u : UTXOSet} {t : UInt64}
    (h : Appends K st.chain st.utxos st.totalIssued block u t) :
    Node.relayBlock K st block = .ok ⟨st.chain ++ [block], u, t⟩ := by
  obtain ⟨previous, hlast, hheight, hprev, htime, hdiff⟩ := h.extends_
  refine bind_ok.mpr ⟨true, h.basic, ?_⟩
  rw [if_neg (by simp), hlast]
  dsimp only
  rw [if_neg (by simp [hheight]), if_neg (by simp [hprev]), if_neg htime, if_neg (by simp [hdiff]), h.issuance]
  exact bind_ok.mpr ⟨some u, h.applies, rfl⟩

theorem relayBlocks_eq : ∀ {batch : List Block} (st : Node.RelayState) {u : UTXOSet} {t : UInt64},
    Replay K st.chain st.utxos st.totalIssued → Replay K (st.chain ++ batch) u t →
    batch.foldlM (Node.relayBlock K) st = .ok ⟨st.chain ++ batch, u, t⟩
  | [], st, u, t, hr, h => by
    rw [List.append_nil] at h ⊢
    obtain ⟨rfl, rfl⟩ := h.unique hr
    rfl
  | block :: batch, st, u, t, hr, h => by
    have hsplit : st.chain ++ block :: batch = (st.chain ++ [block]) ++ batch := by simp
    rw [hsplit] at h ⊢
    obtain ⟨v, s, hnext⟩ := h.take (n := (st.chain ++ [block]).length) (by simp)
    rw [List.take_left] at hnext
    obtain ⟨v₀, s₀, hr₀, ha⟩ := Replay.of_snoc hr.ne_nil hnext
    obtain ⟨rfl, rfl⟩ := hr₀.unique hr
    rw [List.foldlM_cons, relayBlock_eq ha]
    exact relayBlocks_eq ⟨st.chain ++ [block], v, s⟩ hnext h

/-- The chain of the loop's last state is stored, whether blocks were taken or not. -/
theorem handleBlocks_fold (hload : node.storage.load K = .ok chain) {payload : Bytes} {blocks : List Block}
    (hread : readAll Node.readRelayedBlocks "trailing bytes in relayed blocks payload" payload = .ok blocks)
    {u : UTXOSet} {t : UInt64} (hr : Replay K chain u t) {st : Node.RelayState}
    (hst : blocks.foldlM (Node.relayBlock K) ⟨chain, u, t⟩ = .ok st) :
    node.handleBlocks payload = (.ok (), { node with storage := some st.chain }) := by
  obtain ⟨hstore, hl⟩ := load_ok.mp hload
  obtain ⟨-, hblocks⟩ := ((readRelayedBlocks_exact _ _ _).mp (readAll_ok.mp hread)).1
  obtain ⟨hr', more, hmore, hsub⟩ := relayBlocks_ok ⟨chain, u, t⟩ hr hst
  refine commit_ok.mpr (bind_ok.mpr ⟨blocks, hread, ?_⟩)
  rw [if_neg (by simp [hstore])]
  refine bind_ok.mpr ⟨chain, hload, ?_⟩
  rw [if_neg (by simp [hr.ne_nil])]
  refine bind_ok.mpr ⟨u, rebuildUtxoSet_ok.mpr ⟨t, hr⟩, ?_⟩
  rw [hr.chainIssuance]
  refine bind_ok.mpr ⟨st, hst, ?_⟩
  by_cases hsame : st.chain.length = chain.length
  · -- no block was taken
    have hnil : more = [] := by
      rw [hmore, List.length_append] at hsame
      exact List.length_eq_zero_iff.mp (Nat.add_eq_left.mp hsame)
    rw [hnil, List.append_nil] at hmore
    rw [if_pos hsame, hmore, ← hstore]
    rfl
  · rw [if_neg hsame]
    refine bind_ok.mpr ⟨_, save_ok.mpr ⟨rfl, candidate_iff.mpr ⟨_, _, hr'⟩, ?_⟩, rfl⟩
    intro block hb
    rw [hmore] at hb
    rcases List.mem_append.mp hb with hb | hb
    · exact ⟨(hl.stored block hb).1.mono decodeLimit_le, (hl.stored block hb).2⟩
    · obtain ⟨hfits, hsize⟩ := hblocks block (hsub.subset hb)
      exact ⟨hfits.mono decodeLimit_le, Nat.le_trans hsize (by decide)⟩

theorem handleBlocks_eq (hload : node.storage.load K = .ok chain) {batch : List Block} (hne : batch ≠ [])
    (hlen : batch.length ≤ maxBatch) (hafter : Loadable K (chain ++ batch))
    (hsize : ∀ block ∈ batch, block.bytes.length ≤ czrP2PMaxPayload) :
    node.handleBlocks (blocksFrameOf batch).payload = (.ok (), { node with storage := some (chain ++ batch) }) := by
  obtain ⟨-, hl⟩ := load_ok.mp hload
  obtain ⟨u, t, hr⟩ := hl.replay
  obtain ⟨u', t', hr'⟩ := hafter.replay
  have hread : readAll Node.readRelayedBlocks "trailing bytes in relayed blocks payload" (blocksFrameOf batch).payload =
      .ok batch := by
    refine readAll_ok.mpr ((readRelayedBlocks_exact _ _ _).mpr ⟨⟨⟨by simpa using hne, hlen⟩, ?_⟩, by simp [blocksFrameOf]⟩)
    exact fun block hb => ⟨(hafter.stored block (List.mem_append_right _ hb)).1, hsize block hb⟩
  exact handleBlocks_fold hload hread hr (relayBlocks_eq ⟨chain, u, t⟩ hr hr')

/-! ## Receiving a fork -/

/-- The session after `done`, when `left` more blocks are missing. -/
def progress (session : P2PSyncSessionId) (all done : List Block) (left : Nat) : PendingChainSync :=
  ⟨session, all.map Block.header, done.map some ++ List.replicate left none⟩

theorem findIdx_header {all done rest : List Block} {block : Block} (hnd : (all.map (Block.hash K)).Nodup)
    (hall : all = done ++ block :: rest) :
    ((all.map Block.header).findIdx? fun header => header.hash K = block.hash K) = some done.length := by
  rw [List.findIdx?_eq_some_iff_getElem]
  refine ⟨by simp [hall], by simp [hall, Block.hash], fun j hj hp => ?_⟩
  have hj' : j < all.length := by simp [hall]; omega
  have hhash : (all.map (Block.hash K))[j]? = some (block.hash K) := by
    rw [List.getElem?_map, List.getElem?_eq_getElem hj', Option.map_some, Option.some.injEq]
    rw [List.getElem_map] at hp
    exact of_decide_eq_true hp
  refine List.nodup_iff_getElem?_ne_getElem?.mp hnd j done.length hj (by simp [hall]) ?_
  rw [hhash, hall]
  simp

theorem receiveBlocks_eq {all : List Block} (hnd : (all.map (Block.hash K)).Nodup) :
    ∀ {part done rest : List Block}, all = done ++ part ++ rest → (∀ block ∈ part, block.Fits decodeLimit) →
      Node.receiveBlocks K (all.map Block.header) (part.map Block.bytes)
          (done.map some ++ List.replicate (part.length + rest.length) none) =
        (.ok (), (done ++ part).map some ++ List.replicate rest.length none)
  | [], done, rest, _, _ => by simp [Node.receiveBlocks]
  | block :: part, done, rest, hall, hfits => by
    rw [List.forall_mem_cons] at hfits
    have hread : Block.deserializeFull block.bytes = .ok block := blockDeserialize_ok.mpr ⟨hfits.1, rfl⟩
    have hindex := findIdx_header hnd (show all = done ++ block :: (part ++ rest) by simp [hall])
    have hset : (done.map some ++ List.replicate ((block :: part).length + rest.length) none).set done.length (some block) =
        (done ++ [block]).map some ++ List.replicate (part.length + rest.length) none := by
      have hlen : (block :: part).length + rest.length = part.length + rest.length + 1 := by
        rw [List.length_cons]
        omega
      rw [hlen, List.replicate_succ]
      simp
    have hfree : ((done.map some ++ List.replicate ((block :: part).length + rest.length) none)[done.length]?.join).isSome =
        false := by
      rw [List.getElem?_append_right (by simp), List.getElem?_replicate]
      simp
    have hheader : (all.map Block.header)[done.length]?.map (fun header => header.hash K) = some (block.header.hash K) := by
      simp [hall]
    rw [List.map_cons, Node.receiveBlocks, hread]
    dsimp only
    rw [hindex]
    dsimp only
    rw [hfree, if_neg (by simp), hheader, if_neg (by simp), hset,
      receiveBlocks_eq hnd (show all = (done ++ [block]) ++ part ++ rest by simp [hall]) hfits.2]
    simp

theorem handleSyncBlocks_more {walk : Walk K} {session : P2PSyncSessionId} {all done part rest : List Block}
    (hnd : (all.map (Block.hash K)).Nodup) (hall : all = done ++ part ++ rest) (hne : part ≠ [])
    (hlen : part.length ≤ maxBatch)
    (hfits : ∀ block ∈ part, block.Fits decodeLimit ∧ block.bytes.length ≤ czrP2PMaxPayload) (hrest : rest ≠ [])
    (hpending : node.pendingChainSyncs id = some (progress session all done (part.length + rest.length))) :
    node.handleSyncBlocks walk id (syncBlocksFrameOf session part).payload =
      (.ok (), node.setPending id (some (progress session all (done ++ part) rest.length))) := by
  have hread := syncBlocks_read session hlen fun block hb => (hfits block hb).2
  have hreceived := receiveBlocks_eq hnd hall fun block hb => (hfits block hb).1
  have hmissing : (((done ++ part).map some ++ List.replicate rest.length none).all Option.isSome) = false := by
    cases rest with
    | nil => exact absurd rfl hrest
    | cons block rest => simp [List.replicate_succ]
  unfold Node.handleSyncBlocks
  rw [syncBlocksFrameOf, hread]
  dsimp only
  rw [hpending]
  simp only [progress, ne_eq, not_true_eq_false, ite_false, List.isEmpty_iff, List.map_eq_nil_iff, hne, hreceived, hmissing,
    Bool.false_eq_true]

theorem handleSyncBlocks_last {walk : Walk K} {session : P2PSyncSessionId} {all done part : List Block}
    (hnd : (all.map (Block.hash K)).Nodup) (hall : all = done ++ part) (hne : part ≠ [])
    (hlen : part.length ≤ maxBatch)
    (hfits : ∀ block ∈ part, block.Fits decodeLimit ∧ block.bytes.length ≤ czrP2PMaxPayload)
    (hpending : node.pendingChainSyncs id = some (progress session all done part.length)) :
    node.handleSyncBlocks walk id (syncBlocksFrameOf session part).payload =
      (node.setPending id (some (progress session all all 0))).completeSession walk id (all.map Block.header) all := by
  have hread := syncBlocks_read session hlen fun block hb => (hfits block hb).2
  have hreceived := receiveBlocks_eq hnd (show all = done ++ part ++ [] by simp [hall]) fun block hb => (hfits block hb).1
  rw [← hall, List.length_nil, Nat.add_zero] at hreceived
  unfold Node.handleSyncBlocks
  rw [syncBlocksFrameOf, hread]
  dsimp only
  rw [hpending]
  simp only [progress, ne_eq, not_true_eq_false, ite_false, List.isEmpty_iff, List.map_eq_nil_iff, hne, hreceived]
  simp [List.filterMap_map, Function.comp_def]

end

end Caesar
