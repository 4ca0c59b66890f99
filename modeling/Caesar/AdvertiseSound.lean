import Caesar.DiscoverySound

/-!
# Answers to GetPeers

A connection is opened to any host, but only unicast hosts are advertised: the
answer to a peer throws as soon as one of the listed neighbours is of another kind.
Otherwise it lists connected peers only, and not the one that asked.
-/

namespace Caesar

open Codec

/-! ## The addresses of connected peers -/

/-- An address that a connection can have been opened with. -/
def Connectable (address : Bytes) : Prop := address ≠ [] ∧ ∃ host, cString address = Ipv4.dotted host

theorem connectable_dotted (host : UInt32) : Connectable (Ipv4.dotted host) :=
  ⟨Ipv4.dotted_ne_nil host, host, cString_eq_self.mpr (Ipv4.zero_notMem_dotted host)⟩

/-- Calls that come from the server, which opens connections itself. -/
def FromServer (call : PeerCall) : Prop := ∀ valid address port, call ≠ .addPeer valid address port

theorem begin_connectable {call : PeerCall} {s : P2PServer} {address : Bytes} {port : UInt16}
    (h : (s.begin call).2 = some (.connecting address port)) : Connectable address := by
  cases call with
  | accept host port' =>
    unfold P2PServer.begin at h
    dsimp only at h
    split at h
    · cases h
    · cases h
      exact connectable_dotted host
  | connect address' port' =>
    obtain ⟨-, -, hgate⟩ := P2PServer.outboundGate_effect address' port' s
    unfold P2PServer.begin at h
    dsimp only at h
    split at h
    · cases h
    · rename_i hok
      cases h
      obtain ⟨hne, -, hhost⟩ := hgate (by rw [hok])
      exact ⟨hne, hhost⟩
  | penalize id amount =>
    unfold P2PServer.begin at h
    dsimp only at h
    split at h
    · cases h
    · cases h
  | _ => cases h

theorem effect_connectable {new banned : Bytes → Prop} {s after : P2PServer} (h : P2PServer.Effect new banned s after)
    (hnew : ∀ address, new address → Connectable address) (hs : ∀ info ∈ s.manager.peers, Connectable info.address) :
    ∀ info ∈ after.manager.peers, Connectable info.address := by
  have hkept := @P2PPeerManager.of_kept s.manager (fun _ address => Connectable address) hs
  intro info hi
  cases h with
  | shrinks hshrinks => exact hkept (hshrinks.peers info hi)
  | adds address haddress hadds =>
    rcases hadds.peers info hi with h | h
    · exact hkept h
    · rw [h]
      exact hnew address haddress
  | bans address _ hafter =>
    rw [hafter] at hi
    exact hs info hi
  | remembers hlearns hafter =>
    rw [hafter, P2PServer.withManager, hlearns.same.peers] at hi
    exact hs info hi

theorem run_connectable {server : P2PServer} (hnew : server.manager.peers = [])
    {events : List (Interleave.Event PeerCall Bool)} (hevents : Interleave.System.Admits FromServer events) :
    ∀ info ∈ (peerSystem.run events ⟨server, []⟩).shared.manager.peers, Connectable info.address := by
  refine (Interleave.System.run_invariant (I := fun s : P2PServer => ∀ info ∈ s.manager.peers, Connectable info.address)
    (J := fun _ task => ∀ address port, task = .connecting address port → Connectable address) ?_ ?_ hevents
    ⟨by simp [hnew], nofun⟩).1
  · intro call s hcall hs
    refine ⟨effect_connectable (P2PServer.begin_effect call s) ?_ hs, ?_, fun _ h => h⟩
    · rintro address ⟨valid, port, hadd⟩
      exact absurd hadd (hcall valid address port)
    · rintro task htask address port rfl
      exact begin_connectable htask
  · intro greeted s task hs htask
    refine ⟨effect_connectable (P2PServer.advance_effect greeted s task) ?_ hs, ?_, fun _ h => h⟩
    · rintro address ⟨port, hconnecting⟩
      exact htask address port hconnecting
    · rintro rest hrest address port rfl
      cases task with
      | connecting address' port' =>
        have hnone : (s.advance greeted (.connecting address' port')).2 = none := by
          unfold P2PServer.advance
          dsimp only
          split
          · rfl
          · rfl
        rw [show (peerSystem.advance greeted s (.connecting address' port')).2 = none from hnone] at hrest
        cases hrest
      | banning id address' => cases hrest
      | removing id => cases hrest

/-! ## The frame -/

section
variable {m : P2PPeerManager} {walk : PeerWalk} {requester : P2PPeerInfo} {peer : P2PPeerEndpoint}

theorem mem_advertised (h : peer ∈ m.advertised walk requester) :
    (∃ info ∈ m.peers, info.endpoint = peer) ∧ peer.address ≠ [] ∧ peer.port ≠ 0 ∧ peer ≠ requester.endpoint := by
  obtain ⟨hsnapshot, hother⟩ := List.mem_filter.mp (List.mem_of_mem_take h)
  obtain ⟨info, hinfo, rfl⟩ := List.mem_map.mp hsnapshot
  obtain ⟨hwalk, hlisted⟩ := List.mem_filter.mp hinfo
  simp only [Bool.not_eq_true', Bool.or_eq_false_iff, decide_eq_false_iff_not] at hlisted
  refine ⟨⟨info, (walk.perm _).mem_iff.mp hwalk, rfl⟩, ?_, hlisted.2, ?_⟩
  · intro hnil
    have hempty : info.address = [] := hnil
    rw [hempty] at hlisted
    exact absurd hlisted.1 (by simp)
  · intro hsame
    rw [hsame] at hother
    simp [P2PPeerInfo.endpoint] at hother

theorem advertised_length (m : P2PPeerManager) (walk : PeerWalk) (requester : P2PPeerInfo) :
    (m.advertised walk requester).length ≤ czrP2PMaxDiscoveryPeers :=
  List.length_take_le ..

theorem advertised_validate (hpeers : ∀ info ∈ m.peers, Connectable info.address)
    (h : peer ∈ m.advertised walk requester) : peer.validate Ipv4.inetPton = .ok () ↔
      peer.address.length ≤ czrP2PMaxPeerAddress ∧ ∀ host, cString peer.address = Ipv4.dotted host → Unicast host := by
  obtain ⟨⟨info, hinfo, rfl⟩, hne, hport, -⟩ := mem_advertised h
  obtain ⟨-, host, hhost⟩ := hpeers info hinfo
  have haddress : cString info.endpoint.address = Ipv4.dotted host := hhost
  rw [validate_iff]
  constructor
  · rintro ⟨-, hlen, -, host', hhost', hunicast⟩
    refine ⟨hlen, fun host'' hhost'' => ?_⟩
    rwa [Ipv4.dotted_injective (hhost''.symm.trans hhost')]
  · rintro ⟨hlen, hunicast⟩
    exact ⟨hne, hlen, hport, host, haddress, hunicast host haddress⟩

theorem peersPayload_length {peers : List P2PPeerEndpoint} (hlen : peers.length ≤ czrP2PMaxDiscoveryPeers)
    (hvalid : ∀ peer ∈ peers, peer.validate Ipv4.inetPton = .ok ()) :
    (writeSize peers.length ++ peers.flatMap P2PPeerEndpoint.bytes).length ≤ czrP2PMaxPayload := by
  have hpeers : (peers.flatMap P2PPeerEndpoint.bytes).length ≤ peers.length * 263 := by
    clear hlen
    induction peers with
    | nil => simp
    | cons peer rest ih =>
      rw [List.forall_mem_cons] at hvalid
      have hrest := ih hvalid.2
      have haddress := (validate_bounds hvalid.1).2.1
      unfold czrP2PMaxPeerAddress at haddress
      simp only [List.flatMap_cons, List.length_append, P2PPeerEndpoint.bytes, stringBytes, writeSize, writeU32_length,
        List.length_cons, Nat.succ_mul] at hrest ⊢
      omega
  unfold czrP2PMaxDiscoveryPeers at hlen
  unfold czrP2PMaxPayload
  simp only [List.length_append, writeSize, writeU32_length]
  omega

theorem handleGetPeers_iff {id : UInt64} (hrequester : m.find id = some requester) {frame : P2PFrame} :
    m.handleGetPeers walk id [] = .ok (some frame) ↔
      (∀ peer ∈ m.advertised walk requester, peer.validate Ipv4.inetPton = .ok ()) ∧
        frame = ⟨.peers, writeSize (m.advertised walk requester).length ++
          (m.advertised walk requester).flatMap P2PPeerEndpoint.bytes⟩ := by
  have hlen := advertised_length m walk requester
  have hempty : ¬ (!List.isEmpty ([] : Bytes)) = true := by simp
  unfold P2PPeerManager.handleGetPeers
  rw [if_neg hempty, hrequester]
  simp only [bind_ok, pure_ok, Option.some.injEq]
  constructor
  · rintro ⟨made, hmade, sent, hsent, rfl⟩
    obtain rfl : made = sent := by
      unfold sendFrame at hsent
      exact Except.ok.inj (ite_error_ok.mp hsent).2
    obtain ⟨type, payload⟩ := made
    have htype : type = .peers := by
      simp only [makePeersFrame, ite_error_ok, bind_ok, pure_ok, P2PFrame.mk.injEq] at hmade
      obtain ⟨-, written, -, h, -⟩ := hmade
      exact h.symm
    subst htype
    obtain ⟨⟨-, hvalid⟩, rfl⟩ := (makePeersFrame_ok _ _).mp hmade
    exact ⟨hvalid, rfl⟩
  · rintro ⟨hvalid, rfl⟩
    refine ⟨_, (makePeersFrame_ok _ _).mpr ⟨⟨hlen, hvalid⟩, rfl⟩, _, ?_, rfl⟩
    unfold sendFrame
    exact ite_error_ok.mpr ⟨Nat.not_lt.mpr (peersPayload_length hlen hvalid), rfl⟩

end

theorem get_peers_answered_iff {server : P2PServer} (hnew : server.manager.peers = [])
    {events : List (Interleave.Event PeerCall Bool)} (hevents : Interleave.System.Admits FromServer events)
    {m : P2PPeerManager} (hm : (peerSystem.run events ⟨server, []⟩).shared.manager = m) (walk : PeerWalk) {id : UInt64}
    {requester : P2PPeerInfo} (hrequester : m.find id = some requester) :
    (∃ frame peers, m.handleGetPeers walk id [] = .ok (some frame) ∧ frame.type = .peers ∧
      parsePeersPayload Ipv4.inetPton frame.payload = .ok peers ∧ peers.length ≤ 32 ∧
      (∀ peer ∈ peers, ∃ info ∈ m.peers, info.endpoint = peer) ∧ requester.endpoint ∉ peers) ↔
    ∀ peer ∈ m.advertised walk requester, peer.address.length ≤ czrP2PMaxPeerAddress ∧
      ∀ host, cString peer.address = Ipv4.dotted host → Unicast host := by
  have hpeers : ∀ info ∈ m.peers, Connectable info.address := hm ▸ run_connectable hnew hevents
  constructor
  · rintro ⟨frame, peers, hframe, -⟩ peer hp
    exact (advertised_validate hpeers hp).mp (((handleGetPeers_iff hrequester).mp hframe).1 peer hp)
  · intro hlisted
    have hvalid : ∀ peer ∈ m.advertised walk requester, peer.validate Ipv4.inetPton = .ok () :=
      fun peer hp => (advertised_validate hpeers hp).mpr (hlisted peer hp)
    have hlen := advertised_length m walk requester
    refine ⟨_, m.advertised walk requester, (handleGetPeers_iff hrequester).mpr ⟨hvalid, rfl⟩, rfl,
      (parsePeersPayload_ok _ _).mpr ⟨⟨hlen, hvalid⟩, rfl⟩, hlen, fun peer hp => (mem_advertised hp).1, ?_⟩
    intro hself
    exact (mem_advertised hself).2.2.2 rfl

def storedOrder : PeerWalk := ⟨id, fun _ => .refl _⟩

/-- Two inbound connections, one after the other. -/
def toyNeighbours (host host' : UInt32) : List (Interleave.Event PeerCall Bool) :=
  [.spawn (.accept host 5000), .advance 0 true, .spawn (.accept host' 6000), .advance 0 true]

theorem toyNeighbours_fromServer (host host' : UInt32) :
    Interleave.System.Admits FromServer (toyNeighbours host host') := by
  intro call hcall valid address port hadd
  subst hadd
  simp [toyNeighbours] at hcall

theorem get_peers_answered_toy :
    ((peerSystem.run (toyNeighbours 0x08080808 0x09090909) ⟨toyServer, []⟩).shared.manager.find 2).isSome ∧
    ∃ frame, (peerSystem.run (toyNeighbours 0x08080808 0x09090909) ⟨toyServer, []⟩).shared.manager.handleGetPeers
      storedOrder 2 [] = .ok (some frame) := by
  have hrequester : (peerSystem.run (toyNeighbours 0x08080808 0x09090909) ⟨toyServer, []⟩).shared.manager.find 2 =
      some ⟨2, Text.ascii "9.9.9.9", 6000, 100⟩ := by
    decide +kernel
  have hlisted : (peerSystem.run (toyNeighbours 0x08080808 0x09090909) ⟨toyServer, []⟩).shared.manager.advertised
      storedOrder ⟨2, Text.ascii "9.9.9.9", 6000, 100⟩ = [⟨Text.ascii "8.8.8.8", 5000⟩] := by
    decide +kernel
  have hread : Ipv4.inetPton (Text.ascii "8.8.8.8") = some 0x08080808 := by decide +kernel
  refine ⟨by rw [hrequester]; rfl, ?_⟩
  have hanswer := (get_peers_answered_iff rfl (toyNeighbours_fromServer _ _) rfl storedOrder hrequester).mpr (by
    rw [hlisted]
    intro peer hp
    rw [List.mem_singleton.mp hp]
    refine ⟨by decide +kernel, fun host hhost => ?_⟩
    have hzero : cString (Text.ascii "8.8.8.8") = Text.ascii "8.8.8.8" := by decide +kernel
    rw [hzero, ← Ipv4.inetPton_iff, hread] at hhost
    obtain rfl := Option.some.inj hhost
    exact ⟨by decide, by decide, by decide⟩)
  obtain ⟨frame, -, hframe, -⟩ := hanswer
  exact ⟨frame, hframe⟩

/-- A neighbour on the same machine, and nobody gets an answer. -/
theorem loopback_neighbour_refused :
    ((peerSystem.run (toyNeighbours 0x7f000001 0x08080808) ⟨toyServer, []⟩).shared.manager.find 2).isSome ∧
    (peerSystem.run (toyNeighbours 0x7f000001 0x08080808) ⟨toyServer, []⟩).shared.manager.handleGetPeers storedOrder 2 [] =
      fail "loopback P2P peer address" := by
  decide +kernel

end Caesar
