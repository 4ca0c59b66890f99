import Caesar.Messages
import Caesar.WireSound

/-!
# Messages are read from their own bytes only

Each decoder accepts what its encoder writes and nothing else. A reader that is
exact for the values its encoder takes is such a decoder once it has to reach the
end of the payload.
-/

namespace Caesar

open Codec

theorem mutuallyInverse_of_exact {α : Type} {encode : α → Result Bytes} {d : Reader Error α} {P : α → Prop} {enc : α → Bytes}
    (hencode : ∀ x data, encode x = .ok data ↔ P x ∧ data = enc x) (hd : Exact d P enc) (what : String) :
    MutuallyInverse encode (readAll d what) := by
  intro x data
  rw [hencode, readAll_ok, hd, List.append_nil]

/-! ## Hello, ping and pong -/

def P2PHello.bytes (hello : P2PHello) : Bytes := writeU32 hello.protocolVersion ++ (writeU32 hello.networkId ++
  (writeU64 hello.height ++ (writeU64 hello.timestamp ++ stringBytes hello.userAgent)))

theorem userAgent_le {n : Nat} (h : n ≤ czrP2PMaxUserAgent) : n ≤ uint32Max := Nat.le_trans h (by decide)

theorem helloSerialize_ok (hello : P2PHello) (data : Bytes) : hello.serializeBinary = .ok data ↔
    hello.userAgent.length ≤ czrP2PMaxUserAgent ∧ data = hello.bytes := by
  simp only [P2PHello.serializeBinary, ite_error_ok, bind_ok, writeString_ok, pure_ok, Nat.not_lt, P2PHello.bytes]
  constructor
  · rintro ⟨hlen, _, ⟨-, rfl⟩, rfl⟩
    exact ⟨hlen, rfl⟩
  · rintro ⟨hlen, rfl⟩
    exact ⟨hlen, _, ⟨userAgent_le hlen, rfl⟩, rfl⟩

theorem readHello_exact :
    Exact readHello (fun hello => hello.userAgent.length ≤ czrP2PMaxUserAgent) P2PHello.bytes := by
  intro s hello rest
  simp only [readHello, andThen_ok, readU32_ok, readU64_ok, readString_ok, ite_error_ok, Except.ok.injEq, Prod.mk.injEq,
    Nat.not_lt, P2PHello.bytes, List.append_assoc]
  constructor
  · rintro ⟨version, _, rfl, network, _, rfl, height, _, rfl, timestamp, _, rfl, agent, _, ⟨-, rfl⟩, hlen, rfl, rfl⟩
    exact ⟨hlen, rfl⟩
  · rintro ⟨hlen, rfl⟩
    exact ⟨_, _, rfl, _, _, rfl, _, _, rfl, _, _, rfl, _, _, ⟨userAgent_le hlen, rfl⟩, hlen, rfl, rfl⟩

theorem readNonce_exact {α : Type} {make : UInt64 → α} {nonce : α → UInt64} (hmake : ∀ x, make (nonce x) = x)
    (hnonce : ∀ n, nonce (make n) = n) : Exact (readNonce make) (fun _ => True) fun x => writeU64 (nonce x) := by
  intro s x rest
  simp only [readNonce, andThen_ok, readU64_ok, Except.ok.injEq, Prod.mk.injEq, true_and]
  constructor
  · rintro ⟨n, _, rfl, rfl, rfl⟩
    rw [hnonce]
  · rintro rfl
    exact ⟨nonce x, rest, rfl, hmake x, rfl⟩

/-! ## Discovery -/

section
variable {inetPton : Bytes → Option UInt32}

def P2PPeerEndpoint.bytes (peer : P2PPeerEndpoint) : Bytes := stringBytes peer.address ++ writeU32 peer.port.toUInt32

/-- A peer the encoder takes passes the checks the decoder makes before `validate`. -/
theorem validate_bounds {peer : P2PPeerEndpoint} (h : peer.validate inetPton = .ok ()) :
    ¬ peer.address.isEmpty = true ∧ peer.address.length ≤ czrP2PMaxPeerAddress ∧ peer.port ≠ 0 := by
  obtain ⟨hne, h⟩ := ite_error_ok.mp h
  obtain ⟨hlen, h⟩ := ite_error_ok.mp h
  obtain ⟨hport, -⟩ := ite_error_ok.mp h
  exact ⟨hne, Nat.not_lt.mp hlen, hport⟩

theorem peerAddress_le {n : Nat} (h : n ≤ czrP2PMaxPeerAddress) : n ≤ uint32Max := Nat.le_trans h (by decide)

theorem writePeer_ok (peer : P2PPeerEndpoint) (data : Bytes) :
    writePeer inetPton peer = .ok data ↔ peer.validate inetPton = .ok () ∧ data = peer.bytes := by
  simp only [writePeer, bind_ok, writeString_ok, pure_ok, P2PPeerEndpoint.bytes]
  constructor
  · rintro ⟨⟨⟩, hvalid, _, ⟨-, rfl⟩, rfl⟩
    exact ⟨hvalid, rfl⟩
  · rintro ⟨hvalid, rfl⟩
    exact ⟨(), hvalid, _, ⟨peerAddress_le (validate_bounds hvalid).2.1, rfl⟩, rfl⟩

/-- A port is read back from four bytes, and only a port is. -/
theorem port_range {rawPort : UInt32} {port : UInt16} :
    (¬ (rawPort = 0 ∨ rawPort > 65535) ∧ rawPort.toUInt16 = port) ↔ port ≠ 0 ∧ rawPort = port.toUInt32 := by
  have hport := port.toNat_lt
  have hzero : (0 : UInt32).toNat = 0 := rfl
  have hmax : (65535 : UInt32).toNat = 65535 := rfl
  have hnone : (0 : UInt16).toNat = 0 := rfl
  simp only [gt_iff_lt, UInt32.lt_iff_toNat_lt, ← UInt32.toNat_inj, ← UInt16.toNat_inj, ne_eq, UInt32.toNat_toUInt16,
    UInt16.toNat_toUInt32, hzero, hmax, hnone]
  omega

theorem readPeer_exact : Exact (readPeer inetPton) (fun peer => peer.validate inetPton = .ok ()) P2PPeerEndpoint.bytes := by
  intro s peer rest
  simp only [readPeer, andThen_ok, readString_ok, ite_error_ok, readU32_ok, bind_ok, pure_ok, Prod.mk.injEq, Nat.not_lt,
    P2PPeerEndpoint.bytes, List.append_assoc]
  constructor
  · rintro ⟨address, _, ⟨-, rfl⟩, -, -, rawPort, _, rfl, hraw, ⟨⟩, hvalid, rfl, rfl⟩
    obtain ⟨-, hport⟩ := port_range.mp ⟨hraw, rfl⟩
    exact ⟨hvalid, by rw [← hport]⟩
  · rintro ⟨hvalid, rfl⟩
    obtain ⟨hne, hlen, hport⟩ := validate_bounds hvalid
    obtain ⟨hraw, hcast⟩ := port_range.mpr ⟨hport, rfl⟩
    have hsame : (⟨peer.address, peer.port.toUInt32.toUInt16⟩ : P2PPeerEndpoint) = peer := by rw [hcast]
    exact ⟨_, _, ⟨peerAddress_le hlen, rfl⟩, hne, hlen, _, _, rfl, hraw, (), by rw [hsame]; exact hvalid, hsame, rfl⟩

theorem makePeersFrame_ok (peers : List P2PPeerEndpoint) (payload : Bytes) :
    makePeersFrame inetPton peers = .ok ⟨.peers, payload⟩ ↔
      (peers.length ≤ czrP2PMaxDiscoveryPeers ∧ ∀ peer ∈ peers, peer.validate inetPton = .ok ()) ∧
        payload = writeSize peers.length ++ peers.flatMap P2PPeerEndpoint.bytes := by
  simp only [makePeersFrame, ite_error_ok, bind_ok, mapM_ok writePeer_ok, pure_ok, Nat.not_lt, P2PFrame.mk.injEq,
    true_and, List.flatMap_def]
  constructor
  · rintro ⟨hlen, _, ⟨hall, rfl⟩, rfl⟩
    exact ⟨⟨hlen, hall⟩, rfl⟩
  · rintro ⟨⟨hlen, hall⟩, rfl⟩
    exact ⟨hlen, _, ⟨hall, rfl⟩, rfl⟩

theorem parsePeersPayload_ok (peers : List P2PPeerEndpoint) (payload : Bytes) :
    parsePeersPayload inetPton payload = .ok peers ↔
      (peers.length ≤ czrP2PMaxDiscoveryPeers ∧ ∀ peer ∈ peers, peer.validate inetPton = .ok ()) ∧
        payload = writeSize peers.length ++ peers.flatMap P2PPeerEndpoint.bytes := by
  have hexact := (readCount_exact "too many discovery peers" (show czrP2PMaxDiscoveryPeers ≤ uint32Max by decide)).counted
    (@readPeer_exact inetPton)
  rw [parsePeersPayload, readAll_ok, hexact, List.append_nil]

end

/-! ## Synchronisation -/

def GetSyncBlocksMessage.bytes (message : GetSyncBlocksMessage) : Bytes :=
  writeSyncSessionId message.sessionId ++ writeHashes message.blockHashes

theorem getSyncSerialize_ok (message : GetSyncBlocksMessage) (data : Bytes) : message.serializeBinary = .ok data ↔
    (message.blockHashes.length ≠ 0 ∧ message.blockHashes.length ≤ maxBatch) ∧ data = message.bytes := by
  simp only [GetSyncBlocksMessage.serializeBinary, ite_error_ok, Except.ok.injEq, Nat.not_lt, GetSyncBlocksMessage.bytes,
    List.isEmpty_iff, ne_eq, List.length_eq_zero_iff, and_assoc]
  exact and_congr_right fun _ => and_congr_right fun _ => eq_comm

theorem readGetSyncBlocks_exact : Exact readGetSyncBlocks
    (fun message => message.blockHashes.length ≠ 0 ∧ message.blockHashes.length ≤ maxBatch) GetSyncBlocksMessage.bytes := by
  intro s message rest
  simp only [readGetSyncBlocks, andThen_ok, readSyncSessionId_exact s,
    readHashes_exact _ (show maxBatch ≤ uint32Max by decide) _, Except.ok.injEq, Prod.mk.injEq, true_and,
    GetSyncBlocksMessage.bytes, List.append_assoc]
  constructor
  · rintro ⟨id, _, rfl, hashes, _, ⟨⟨hcount, -⟩, rfl⟩, rfl, rfl⟩
    exact ⟨hcount, rfl⟩
  · rintro ⟨hcount, rfl⟩
    exact ⟨_, _, rfl, _, _, ⟨⟨hcount, fun _ _ => trivial⟩, rfl⟩, rfl, rfl⟩

def SyncBlocksMessage.bytes (message : SyncBlocksMessage) : Bytes :=
  writeSyncSessionId message.sessionId ++ (writeSize message.blocks.length ++ message.blocks.flatMap writeSized)

theorem writeSyncBlock_ok (block data : Bytes) : writeSyncBlock block = .ok data ↔
    (block.length ≠ 0 ∧ block.length ≤ czrP2PMaxPayload) ∧ data = writeSized block := by
  simp only [writeSyncBlock, ite_error_ok, Except.ok.injEq, Nat.not_lt, List.isEmpty_iff, ne_eq,
    List.length_eq_zero_iff, and_assoc]
  exact and_congr_right fun _ => and_congr_right fun _ => eq_comm

theorem syncSerialize_ok (message : SyncBlocksMessage) (data : Bytes) : message.serializeBinary = .ok data ↔
    (message.blocks.length ≤ maxBatch ∧ ∀ block ∈ message.blocks, block.length ≠ 0 ∧ block.length ≤ czrP2PMaxPayload) ∧
      data = message.bytes := by
  simp only [SyncBlocksMessage.serializeBinary, ite_error_ok, bind_ok, mapM_ok writeSyncBlock_ok, pure_ok, Nat.not_lt,
    SyncBlocksMessage.bytes, List.flatMap_def]
  constructor
  · rintro ⟨hlen, _, ⟨hall, rfl⟩, rfl⟩
    exact ⟨⟨hlen, hall⟩, rfl⟩
  · rintro ⟨⟨hlen, hall⟩, rfl⟩
    exact ⟨hlen, _, ⟨hall, rfl⟩, rfl⟩

theorem readSyncBlocks_exact : Exact readSyncBlocks
    (fun message => message.blocks.length ≤ maxBatch ∧
      ∀ block ∈ message.blocks, block.length ≠ 0 ∧ block.length ≤ czrP2PMaxPayload) SyncBlocksMessage.bytes := by
  intro s message rest
  simp only [readSyncBlocks, andThen_ok, readSyncSessionId_exact s, readCount_ok (show maxBatch ≤ uint32Max by decide),
    readMany_ok readSyncBlock_exact, Except.ok.injEq, Prod.mk.injEq, true_and, SyncBlocksMessage.bytes, List.append_assoc]
  constructor
  · rintro ⟨id, _, rfl, count, _, ⟨hcount, rfl⟩, blocks, _, ⟨rfl, hall, rfl⟩, rfl, rfl⟩
    exact ⟨⟨hcount, hall⟩, rfl⟩
  · rintro ⟨⟨hcount, hall⟩, rfl⟩
    exact ⟨_, _, rfl, _, _, ⟨hcount, rfl⟩, _, _, ⟨rfl, hall, rfl⟩, rfl, rfl⟩

/-- Each decoder undoes its encoder and accepts nothing but what the encoder writes. -/
theorem messages_canonical (inetPton : Bytes → Option UInt32) :
    MutuallyInverse P2PFrame.serializeBinary P2PFrame.deserializeBinary ∧
    MutuallyInverse P2PHello.serializeBinary P2PHello.deserializeBinary ∧
    MutuallyInverse (fun ping => .ok (P2PPing.serializeBinary ping)) P2PPing.deserializeBinary ∧
    MutuallyInverse (fun pong => .ok (P2PPong.serializeBinary pong)) P2PPong.deserializeBinary ∧
    (∀ peers payload, makePeersFrame inetPton peers = .ok ⟨.peers, payload⟩ ↔
      parsePeersPayload inetPton payload = .ok peers) ∧
    MutuallyInverse GetSyncBlocksMessage.serializeBinary GetSyncBlocksMessage.deserializeBinary ∧
    MutuallyInverse SyncBlocksMessage.serializeBinary SyncBlocksMessage.deserializeBinary := by
  refine ⟨?_, mutuallyInverse_of_exact helloSerialize_ok readHello_exact _, ?_, ?_, ?_,
    mutuallyInverse_of_exact getSyncSerialize_ok readGetSyncBlocks_exact _,
    mutuallyInverse_of_exact syncSerialize_ok readSyncBlocks_exact _⟩
  · intro frame data
    rw [frameSerialize_ok, frameDeserialize_ok]
  · refine mutuallyInverse_of_exact ?_ (readNonce_exact (fun _ => rfl) fun _ => rfl) _
    intro ping data
    rw [Except.ok.injEq, true_and, eq_comm, P2PPing.serializeBinary]
  · refine mutuallyInverse_of_exact ?_ (readNonce_exact (fun _ => rfl) fun _ => rfl) _
    intro pong data
    rw [Except.ok.injEq, true_and, eq_comm, P2PPong.serializeBinary]
  · intro peers payload
    rw [makePeersFrame_ok, parsePeersPayload_ok]

end Caesar
