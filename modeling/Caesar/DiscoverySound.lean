import Caesar.PeerManagerSound
import Caesar.MessagesSound
import Mathlib.Data.List.TakeWhile

/-!
# What discovery remembers

`validate` reads an address up to its first zero byte, while the table compares the
whole text. So a remembered address stands for a unicast host, and it is the text
of that host, remembered once, exactly when no zero byte is in it.
-/

namespace Caesar

open Codec

/-! ## Endpoints -/

def firstOctet (host : UInt32) : UInt32 := (host >>> 24) &&& 0xff

def Unicast (host : UInt32) : Prop := firstOctet host ≠ 0 ∧ firstOctet host ≠ 127 ∧ firstOctet host < 224

theorem validate_iff {peer : P2PPeerEndpoint} : peer.validate Ipv4.inetPton = .ok () ↔
    peer.address ≠ [] ∧ peer.address.length ≤ czrP2PMaxPeerAddress ∧ peer.port ≠ 0 ∧
      ∃ host, cString peer.address = Ipv4.dotted host ∧ Unicast host := by
  unfold P2PPeerEndpoint.validate
  simp only [ite_error_ok, List.isEmpty_iff, Nat.not_lt]
  refine and_congr_right fun _ => and_congr_right fun _ => and_congr_right fun _ => ?_
  simp only [← Ipv4.inetPton_iff]
  cases hread : Ipv4.inetPton (cString peer.address) with
  | none => simp [fail]
  | some host =>
    simp only [ite_error_ok, and_true, Option.some.injEq, exists_eq_left']
    unfold Unicast firstOctet
    rw [ge_iff_le, UInt32.not_le]

def P2PPeerEndpoint.denotes (peer : P2PPeerEndpoint) : Option UInt32 × UInt16 :=
  (Ipv4.inetPton (cString peer.address), peer.port)

theorem cString_eq_self {s : Bytes} : cString s = s ↔ (0 : UInt8) ∉ s := by
  unfold cString
  rw [List.takeWhile_eq_self_iff]
  constructor
  · intro h hzero
    simpa using h 0 hzero
  · intro h b hb
    have hne : b ≠ 0 := fun hzero => h (hzero ▸ hb)
    simpa using hne

/-! ## The list of endpoints -/

/-- What holds of the remembered endpoints in every run. -/
structure Remembered (known : List P2PPeerEndpoint) : Prop where
  length_le : known.length ≤ maxKnownPeers
  nodup : known.Nodup
  valid : ∀ peer ∈ known, peer.validate Ipv4.inetPton = .ok ()

theorem remembered_nil : Remembered [] := ⟨Nat.zero_le _, List.nodup_nil, nofun⟩

section
variable {m : P2PPeerManager}

theorem rememberPeerEndpoint_known (endpoint : P2PPeerEndpoint) :
    (m.rememberPeerEndpoint endpoint).2.knownPeers = m.knownPeers ∨
      endpoint.validate Ipv4.inetPton = .ok () ∧ endpoint ∉ m.knownPeers ∧ m.knownPeers.length < maxKnownPeers ∧
        (m.rememberPeerEndpoint endpoint).2.knownPeers = m.knownPeers ++ [endpoint] := by
  unfold P2PPeerManager.rememberPeerEndpoint
  split
  · exact Or.inl rfl
  · rename_i hvalid
    split
    · exact Or.inl rfl
    · rename_i hnew
      split
      · exact Or.inl rfl
      · rename_i hroom
        refine Or.inr ⟨hvalid, ?_, Nat.not_le.mp hroom, rfl⟩
        intro hmem
        exact hnew (List.any_eq_true.mpr ⟨endpoint, hmem, by simp⟩)

theorem Remembered.remember (h : Remembered m.knownPeers) (endpoint : P2PPeerEndpoint) :
    Remembered (m.rememberPeerEndpoint endpoint).2.knownPeers := by
  obtain hsame | ⟨hvalid, hnew, hroom, hmore⟩ := @rememberPeerEndpoint_known m endpoint
  · rw [hsame]
    exact h
  · rw [hmore]
    refine ⟨?_, ?_, ?_⟩
    · rw [List.length_append, List.length_singleton]
      exact hroom
    · rw [List.nodup_append]
      refine ⟨h.nodup, List.nodup_singleton _, ?_⟩
      intro peer hp other hother
      rw [List.mem_singleton.mp hother]
      exact fun heq => hnew (heq ▸ hp)
    · intro peer hp
      rcases List.mem_append.mp hp with hp | hp
      · exact h.valid peer hp
      · rw [List.mem_singleton.mp hp]
        exact hvalid

theorem Remembered.rememberAll {endpoints : List P2PPeerEndpoint} : ∀ {m : P2PPeerManager}, Remembered m.knownPeers →
    Remembered (m.rememberPeerEndpoints endpoints).2.knownPeers := by
  induction endpoints with
  | nil => exact fun h => h
  | cons endpoint rest ih =>
    intro m h
    have hstep := h.remember endpoint
    rw [P2PPeerManager.rememberPeerEndpoints]
    split
    · rename_i hfirst
      rwa [hfirst] at hstep
    · rename_i hfirst
      rw [hfirst] at hstep
      exact ih hstep

theorem Remembered.handlePeers (h : Remembered m.knownPeers) (payload : Bytes) :
    Remembered (m.handlePeers payload).2.knownPeers := by
  unfold P2PPeerManager.handlePeers
  split
  · exact h
  · exact h.rememberAll

theorem Remembered.learns {m' : P2PPeerManager} (h : Remembered m.knownPeers) (hm : m.Learns m') :
    Remembered m'.knownPeers := by
  cases hm with
  | peers payload => exact h.handlePeers payload
  | remember endpoint => exact h.remember endpoint
  | forget address port =>
    exact ⟨(List.length_filter_le ..).trans h.length_le, h.nodup.filter _, fun peer hp => h.valid peer (List.mem_filter.mp hp).1⟩

theorem Remembered.run {server : P2PServer} (h : Remembered server.manager.knownPeers)
    (events : List (Interleave.Event PeerCall Bool)) :
    Remembered (peerSystem.run events ⟨server, []⟩).shared.manager.knownPeers := by
  have hkeeps : ∀ {new banned : Bytes → Prop} {s after : P2PServer}, P2PServer.Effect new banned s after →
      Remembered s.manager.knownPeers → Remembered after.manager.knownPeers := by
    intro new banned s after heffect hs
    cases heffect with
    | shrinks hshrinks => exact hshrinks.known ▸ hs
    | adds address _ hadds => exact hadds.known ▸ hs
    | bans address _ hafter => exact hafter ▸ hs
    | remembers hlearns hafter => exact hafter ▸ hs.learns hlearns
  refine (Interleave.System.run_invariant (I := fun s : P2PServer => Remembered s.manager.knownPeers)
    (J := fun _ _ => True) (P := fun _ => True) ?_ ?_ (fun _ _ => trivial) ⟨h, fun _ _ => trivial⟩).1
  · intro call s _ hs
    exact ⟨hkeeps (P2PServer.begin_effect call s) hs, fun _ _ => trivial, fun _ _ => trivial⟩
  · intro greeted s task hs _
    exact ⟨hkeeps (P2PServer.advance_effect greeted s task) hs, fun _ _ => trivial, fun _ _ => trivial⟩

end

/-! ## Texts of hosts -/

theorem Remembered.dotted {known : List P2PPeerEndpoint} (h : Remembered known) {peer : P2PPeerEndpoint}
    (hp : peer ∈ known) (hzero : (0 : UInt8) ∉ peer.address) :
    ∃ host, peer.address = Ipv4.dotted host ∧ Unicast host := by
  obtain ⟨-, -, -, host, hread, hunicast⟩ := validate_iff.mp (h.valid peer hp)
  rw [cString_eq_self.mpr hzero] at hread
  exact ⟨host, hread, hunicast⟩

theorem Remembered.denotes_nodup {known : List P2PPeerEndpoint} (h : Remembered known)
    (hzero : ∀ peer ∈ known, (0 : UInt8) ∉ peer.address) : (known.map P2PPeerEndpoint.denotes).Nodup := by
  refine List.Nodup.map_on ?_ h.nodup
  intro peer hp other ho hsame
  obtain ⟨host, hpeer, -⟩ := h.dotted hp (hzero peer hp)
  obtain ⟨host', hother, -⟩ := h.dotted ho (hzero other ho)
  obtain ⟨hhost, hport⟩ := Prod.mk.inj hsame
  rw [cString_eq_self.mpr (hzero peer hp), cString_eq_self.mpr (hzero other ho), hpeer, hother,
    Ipv4.inetPton_iff.mpr rfl, Ipv4.inetPton_iff.mpr rfl, Option.some.injEq] at hhost
  obtain ⟨address, port⟩ := peer
  obtain ⟨address', port'⟩ := other
  subst hhost
  exact P2PPeerEndpoint.mk.injEq .. ▸ ⟨hpeer.trans hother.symm, hport⟩

/-! ## What the messages name -/

/-- The endpoints that a call brings. -/
def PeerCall.Names (peer : P2PPeerEndpoint) : PeerCall → Prop
  | .peers payload => ∃ peers, parsePeersPayload Ipv4.inetPton payload = .ok peers ∧ peer ∈ peers
  | .remember endpoint => peer = endpoint
  | _ => False

theorem mem_remember {m : P2PPeerManager} {endpoint peer : P2PPeerEndpoint}
    (h : peer ∈ (m.rememberPeerEndpoint endpoint).2.knownPeers) : peer ∈ m.knownPeers ∨ peer = endpoint := by
  obtain hsame | ⟨-, -, -, hmore⟩ := @rememberPeerEndpoint_known m endpoint
  · rw [hsame] at h
    exact Or.inl h
  · rw [hmore, List.mem_append, List.mem_singleton] at h
    exact h

theorem mem_rememberAll {endpoints : List P2PPeerEndpoint} {peer : P2PPeerEndpoint} : ∀ {m : P2PPeerManager},
    peer ∈ (m.rememberPeerEndpoints endpoints).2.knownPeers → peer ∈ m.knownPeers ∨ peer ∈ endpoints := by
  induction endpoints with
  | nil => exact fun h => Or.inl h
  | cons endpoint rest ih =>
    intro m h
    have hfirst : ∀ {p}, p ∈ (m.rememberPeerEndpoint endpoint).2.knownPeers → p ∈ m.knownPeers ∨ p ∈ endpoint :: rest :=
      fun hp => (mem_remember hp).imp_right fun he => List.mem_cons.mpr (Or.inl he)
    rw [P2PPeerManager.rememberPeerEndpoints] at h
    split at h
    · rename_i heq
      rw [heq] at hfirst
      exact hfirst h
    · rename_i heq
      rw [heq] at hfirst
      rcases ih h with hp | hp
      · exact hfirst hp
      · exact Or.inr (List.mem_cons_of_mem _ hp)

theorem begin_named (call : PeerCall) (s : P2PServer) {peer : P2PPeerEndpoint}
    (h : peer ∈ (s.begin call).1.manager.knownPeers) : peer ∈ s.manager.knownPeers ∨ call.Names peer := by
  have hsame : ∀ {m : P2PPeerManager}, m.knownPeers = s.manager.knownPeers → peer ∈ m.knownPeers →
      peer ∈ s.manager.knownPeers ∨ call.Names peer := fun hm hp => Or.inl (hm ▸ hp)
  cases call with
  | accept host port =>
    unfold P2PServer.begin at h
    dsimp only at h
    split at h
    · exact Or.inl h
    · exact Or.inl h
  | connect address port =>
    obtain ⟨hshrinks, -, -⟩ := P2PServer.outboundGate_effect address port s
    unfold P2PServer.begin at h
    dsimp only at h
    split at h
    · rename_i hgate
      rw [hgate] at hshrinks
      exact hsame hshrinks.known h
    · rename_i hgate
      rw [hgate] at hshrinks
      exact hsame hshrinks.known h
  | addPeer valid address port =>
    obtain hm | hm := P2PPeerManager.addPeer_effect s.now valid address port s.manager
    · exact hsame hm.known h
    · exact hsame hm.known h
  | removePeer id => exact hsame (P2PPeerManager.removePeer_shrinks id _).known h
  | clear => exact hsame (P2PPeerManager.clear_shrinks _).known h
  | penalize id amount => exact hsame (P2PPeerManager.penalizeScore_shrinks id amount _).known h
  | reward id amount => exact hsame (P2PPeerManager.reward_shrinks id amount _).known h
  | ban address => exact Or.inl h
  | unban address => exact hsame (P2PPeerManager.unban_shrinks address _).known h
  | remember endpoint => exact mem_remember h
  | forget address port => exact Or.inl (List.mem_filter.mp h).1
  | peers payload =>
    have h : peer ∈ (s.manager.handlePeers payload).2.knownPeers := h
    unfold P2PPeerManager.handlePeers at h
    split at h
    · exact Or.inl h
    · rename_i peers hread
      exact (mem_rememberAll h).imp_right fun hp => ⟨peers, hread, hp⟩
  | tick elapsed => exact Or.inl h

theorem advance_known (greeted : Bool) (s : P2PServer) (task : PeerTask) :
    (s.advance greeted task).1.manager.knownPeers = s.manager.knownPeers := by
  cases task with
  | connecting address port =>
    unfold P2PServer.advance
    dsimp only
    split
    · rfl
    · obtain hm | hm := P2PPeerManager.addPeer_effect s.now true address port s.manager
      · exact hm.known
      · exact hm.known
  | banning id address => rfl
  | removing id => exact (P2PPeerManager.removePeer_shrinks id _).known

theorem known_named {server : P2PServer} (hnew : server.manager.knownPeers = [])
    (events : List (Interleave.Event PeerCall Bool)) :
    ∀ peer ∈ (peerSystem.run events ⟨server, []⟩).shared.manager.knownPeers,
      ∃ call, .spawn call ∈ events ∧ call.Names peer := by
  have hstart : ∀ peer ∈ server.manager.knownPeers, ∃ call, .spawn call ∈ events ∧ call.Names peer := by
    intro peer hp
    rw [hnew] at hp
    cases hp
  refine (Interleave.System.run_invariant
    (I := fun s : P2PServer => ∀ peer ∈ s.manager.knownPeers, ∃ call, .spawn call ∈ events ∧ call.Names peer)
    (J := fun _ _ => True) (P := fun call => .spawn call ∈ events) (c := ⟨server, []⟩) ?_ ?_ (fun call h => h)
    ⟨hstart, fun _ _ => trivial⟩).1
  · intro call s hcall hs
    refine ⟨fun peer hp => ?_, fun _ _ => trivial, fun _ _ => trivial⟩
    rcases begin_named call s hp with hp | hp
    · exact hs peer hp
    · exact ⟨call, hcall, hp⟩
  · intro greeted s task hs _
    exact ⟨fun peer hp => hs peer (advance_known greeted s task ▸ hp), fun _ _ => trivial, fun _ _ => trivial⟩

/-- An address is written as its host, and no host and port is remembered twice, exactly when no remembered address has a
zero byte; and none has if no message or call brings one. -/
theorem discovery_wellformed_iff {server : P2PServer} (hnew : server.manager.knownPeers = [])
    (events : List (Interleave.Event PeerCall Bool)) {known : List P2PPeerEndpoint}
    (hknown : (peerSystem.run events ⟨server, []⟩).shared.manager.knownPeers = known) :
    known.length ≤ maxKnownPeers ∧
    ((∀ peer ∈ known, ∃ host, peer.address = Ipv4.dotted host ∧ Unicast host) ∧
        (known.map P2PPeerEndpoint.denotes).Nodup ↔
      ∀ peer ∈ known, (0 : UInt8) ∉ peer.address) ∧
    ((∀ call peer, .spawn call ∈ events → call.Names peer → (0 : UInt8) ∉ peer.address) →
      (∀ peer ∈ known, ∃ host, peer.address = Ipv4.dotted host ∧ Unicast host) ∧
        (known.map P2PPeerEndpoint.denotes).Nodup) := by
  have hrun : Remembered known := by
    rw [← hknown]
    exact Remembered.run (hnew ▸ remembered_nil) events
  have hfine : (∀ peer ∈ known, (0 : UInt8) ∉ peer.address) →
      (∀ peer ∈ known, ∃ host, peer.address = Ipv4.dotted host ∧ Unicast host) ∧
        (known.map P2PPeerEndpoint.denotes).Nodup :=
    fun hzero => ⟨fun peer hp => hrun.dotted hp (hzero peer hp), hrun.denotes_nodup hzero⟩
  refine ⟨hrun.length_le, ⟨?_, hfine⟩, fun hnamed => hfine fun peer hp => ?_⟩
  · rintro ⟨htexts, -⟩ peer hp
    obtain ⟨host, haddress, -⟩ := htexts peer hp
    rw [haddress]
    exact Ipv4.zero_notMem_dotted host
  · obtain ⟨call, hcall, hnames⟩ := known_named hnew events peer (hknown ▸ hp)
    exact hnamed call peer hcall hnames

def toyServer : P2PServer := ⟨.empty, true, Text.ascii "0.0.0.0", 9000, 0⟩

def plainEndpoint : P2PPeerEndpoint := ⟨Text.ascii "8.8.8.8", 1⟩

/-- The same host and port with something after the end of the C string. -/
def aliasEndpoint : P2PPeerEndpoint := ⟨Text.ascii "8.8.8.8" ++ [0, 120], 1⟩

def toyPeers (peers : List P2PPeerEndpoint) : Interleave.Event PeerCall Bool :=
  .spawn (.peers (writeSize peers.length ++ peers.flatMap P2PPeerEndpoint.bytes))

theorem discovery_wellformed_toy :
    (peerSystem.run [toyPeers [plainEndpoint]] ⟨toyServer, []⟩).shared.manager.knownPeers = [plainEndpoint] ∧
    ∃ host, plainEndpoint.address = Ipv4.dotted host ∧ Unicast host := by
  have hknown : (peerSystem.run [toyPeers [plainEndpoint]] ⟨toyServer, []⟩).shared.manager.knownPeers = [plainEndpoint] := by
    decide +kernel
  exact ⟨hknown, ((discovery_wellformed_iff rfl _ hknown).2.1.mpr (by decide +kernel)).1 _ (by simp)⟩

theorem alias_remembered :
    (peerSystem.run [toyPeers [plainEndpoint, aliasEndpoint]] ⟨toyServer, []⟩).shared.manager.knownPeers =
      [plainEndpoint, aliasEndpoint] ∧
    plainEndpoint.denotes = aliasEndpoint.denotes ∧ ∀ host, aliasEndpoint.address ≠ Ipv4.dotted host := by
  refine ⟨by decide +kernel, by decide +kernel, ?_⟩
  intro host h
  exact Ipv4.zero_notMem_dotted host (h ▸ (by decide +kernel : (0 : UInt8) ∈ aliasEndpoint.address))

end Caesar
