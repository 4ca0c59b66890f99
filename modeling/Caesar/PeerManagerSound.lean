import Caesar.PeerManager

/-!
# What the sections of the peer table do

Almost every section only takes entries and bans away, or changes scores
(`Shrinks`). One adds an entry whose address is not banned at that time (`Adds`),
one bans an address, and one remembers endpoints (`begin_effect`,
`advance_effect`).
-/

namespace Caesar

open Codec

namespace P2PPeerManager

/-- The address is banned at this time. -/
def inWindow (now : Nat) (address : Bytes) (m : P2PPeerManager) : Bool :=
  (m.bannedAddresses address).any fun banEnd => now < banEnd

/-- No entry, ban or known endpoint is new; scores may differ. -/
structure Shrinks (m after : P2PPeerManager) : Prop where
  peers : ∀ info ∈ after.peers, ∃ old ∈ m.peers, info.id = old.id ∧ info.endpoint = old.endpoint
  bans : ∀ address banEnd, after.bannedAddresses address = some banEnd → m.bannedAddresses address = some banEnd
  known : after.knownPeers = m.knownPeers

/-- One entry is new, and its address is not banned. -/
structure Adds (now : Nat) (address : Bytes) (m after : P2PPeerManager) : Prop where
  peers : ∀ info ∈ after.peers, (∃ old ∈ m.peers, info.id = old.id ∧ info.endpoint = old.endpoint) ∨ info.address = address
  bans : ∀ address banEnd, after.bannedAddresses address = some banEnd → m.bannedAddresses address = some banEnd
  free : after.inWindow now address = false
  known : after.knownPeers = m.knownPeers

variable {m m' : P2PPeerManager} {now : Nat} {address : Bytes} {id : UInt64}

theorem Shrinks.refl (m : P2PPeerManager) : Shrinks m m :=
  ⟨fun info h => ⟨info, h, rfl, rfl⟩, fun _ _ h => h, rfl⟩

theorem inWindow_of_bans {later : Nat} (hnow : now ≤ later)
    (hbans : ∀ address banEnd, m'.bannedAddresses address = some banEnd → m.bannedAddresses address = some banEnd)
    (hw : m'.inWindow later address = true) : m.inWindow now address = true := by
  obtain ⟨banEnd, hban, hlt⟩ := (Option.any_eq_true ..).mp hw
  rw [inWindow, hbans _ _ hban]
  simp only [Option.any_some, decide_eq_true_eq] at hlt ⊢
  omega

/-- What holds of every id with its address still does for an entry whose score may have changed. -/
theorem of_kept {P : UInt64 → Bytes → Prop} (hm : ∀ old ∈ m.peers, P old.id old.address) {info : P2PPeerInfo}
    (h : ∃ old ∈ m.peers, info.id = old.id ∧ info.endpoint = old.endpoint) : P info.id info.address := by
  obtain ⟨old, hold, hid, hendpoint⟩ := h
  have haddress : info.address = old.address := congrArg P2PPeerEndpoint.address hendpoint
  rw [hid, haddress]
  exact hm old hold

theorem unban_self (address : Bytes) (m : P2PPeerManager) : (m.unban address).bannedAddresses address = none :=
  Function.update_self ..

theorem unban_of_ne {other : Bytes} (h : other ≠ address) (m : P2PPeerManager) :
    (m.unban address).bannedAddresses other = m.bannedAddresses other :=
  Function.update_of_ne h ..

theorem ban_self (now : Nat) (address : Bytes) (m : P2PPeerManager) :
    (m.ban now address).bannedAddresses address = some (now + defaultBanDuration) :=
  Function.update_self ..

theorem ban_of_ne {other : Bytes} (h : other ≠ address) (now : Nat) (m : P2PPeerManager) :
    (m.ban now address).bannedAddresses other = m.bannedAddresses other :=
  Function.update_of_ne h ..

theorem unban_shrinks (address : Bytes) (m : P2PPeerManager) : Shrinks m (m.unban address) := by
  refine ⟨fun info h => ⟨info, h, rfl, rfl⟩, ?_, rfl⟩
  intro other banEnd h
  by_cases hother : other = address
  · rw [hother, unban_self] at h
    cases h
  · rwa [unban_of_ne hother] at h

theorem isBannedLocked_eq (now : Nat) (address : Bytes) (m : P2PPeerManager) :
    (m.isBannedLocked now address).1 = m.inWindow now address ∧ Shrinks m (m.isBannedLocked now address).2 ∧
      (m.isBannedLocked now address).2.table = m.table ∧ (m.isBannedLocked now address).2.nextId = m.nextId := by
  unfold isBannedLocked inWindow
  cases hban : m.bannedAddresses address with
  | none => exact ⟨rfl, Shrinks.refl m, rfl, rfl⟩
  | some banEnd =>
    dsimp only
    by_cases hover : banEnd ≤ now
    · rw [if_pos hover]
      exact ⟨(decide_eq_false (Nat.not_lt.mpr hover)).symm, unban_shrinks address m, rfl, rfl⟩
    · rw [if_neg hover]
      exact ⟨(decide_eq_true (Nat.not_le.mp hover)).symm, Shrinks.refl m, rfl, rfl⟩

theorem mem_removePeer {info : P2PPeerInfo} : info ∈ (m.removePeer id).peers ↔ info ∈ m.peers ∧ info.id ≠ id := by
  constructor
  · intro h
    obtain ⟨entry, hentry, rfl⟩ := List.mem_map.mp h
    obtain ⟨hmem, hkey⟩ := List.mem_filter.mp hentry
    rw [← m.keyed entry hmem]
    exact ⟨List.mem_map_of_mem hmem, by simpa using hkey⟩
  · rintro ⟨h, hid⟩
    obtain ⟨entry, hmem, rfl⟩ := List.mem_map.mp h
    rw [← m.keyed entry hmem] at hid
    exact List.mem_map_of_mem (List.mem_filter.mpr ⟨hmem, by simpa using hid⟩)

theorem removePeer_shrinks (id : UInt64) (m : P2PPeerManager) : Shrinks m (m.removePeer id) :=
  ⟨fun info h => ⟨info, (mem_removePeer.mp h).1, rfl, rfl⟩, fun _ _ h => h, rfl⟩

theorem clear_shrinks (m : P2PPeerManager) : Shrinks m m.clear := ⟨nofun, fun _ _ h => h, rfl⟩

theorem setScore_shrinks (id : UInt64) (score : Int) (m : P2PPeerManager) : Shrinks m (m.setScore id score) := by
  refine ⟨?_, fun _ _ h => h, rfl⟩
  intro info h
  obtain ⟨entry, hentry, rfl⟩ := List.mem_map.mp h
  obtain ⟨old, hold, rfl⟩ := List.mem_map.mp hentry
  exact ⟨old.2, List.mem_map_of_mem hold, (rescore_face id score old).2⟩

theorem penalizeScore_shrinks (id : UInt64) (amount : Int) (m : P2PPeerManager) :
    Shrinks m (m.penalizeScore id amount).2 := by
  unfold penalizeScore
  split
  · exact Shrinks.refl m
  · dsimp only
    split
    · exact setScore_shrinks ..
    · exact setScore_shrinks ..

theorem reward_shrinks (id : UInt64) (amount : Int) (m : P2PPeerManager) : Shrinks m (m.reward id amount) := by
  unfold reward
  split
  · exact Shrinks.refl m
  · exact setScore_shrinks ..

theorem emplace_adds {next : UInt64} (h : Shrinks m m') (hfree : m'.inWindow now address = false) (port : UInt16)
    (score : Int) : Adds now address m ({ m' with nextId := next }.emplace ⟨id, address, port, score⟩) := by
  unfold emplace
  split
  · exact ⟨fun old hold => Or.inl (h.peers old hold), h.bans, hfree, h.known⟩
  · refine ⟨?_, h.bans, hfree, h.known⟩
    intro other hother
    obtain ⟨entry, hentry, rfl⟩ := List.mem_map.mp hother
    rcases List.mem_cons.mp hentry with rfl | hold
    · exact Or.inr rfl
    · exact Or.inl (h.peers entry.2 (List.mem_map_of_mem hold))

theorem addPeer_effect (now : Nat) (valid : Bool) (address : Bytes) (port : UInt16) (m : P2PPeerManager) :
    Shrinks m (m.addPeer now valid address port).2 ∨ Adds now address m (m.addPeer now valid address port).2 := by
  obtain ⟨hbanned, hshrinks, -⟩ := isBannedLocked_eq now address m
  unfold addPeer
  split
  · exact Or.inl (Shrinks.refl m)
  · split
    · exact Or.inl (Shrinks.refl m)
    · split
      · rename_i h
        rw [h] at hshrinks
        exact Or.inl hshrinks
      · rename_i h
        rw [h] at hshrinks hbanned
        split
        · exact Or.inl hshrinks
        · right
          have hfree : (m.isBannedLocked now address).2.inWindow now address = false := by
            by_contra hin
            rw [inWindow_of_bans (Nat.le_refl now) hshrinks.bans (by simpa [h] using hin)] at hbanned
            cases hbanned
          rw [h] at hfree
          exact emplace_adds hshrinks hfree port _

theorem ban_inWindow (now : Nat) (address other : Bytes) (m : P2PPeerManager) :
    (m.ban now address).inWindow now other = true ↔ other = address ∨ m.inWindow now other = true := by
  unfold inWindow
  by_cases hother : other = address
  · have hlong : 0 < defaultBanDuration := by decide
    rw [hother, ban_self, Option.any_some, decide_eq_true_iff]
    exact ⟨fun _ => Or.inl rfl, fun _ => Nat.lt_add_of_pos_right hlong⟩
  · rw [ban_of_ne hother]
    simp [hother]

/-- Only the remembered endpoints may differ. -/
structure SameTable (m after : P2PPeerManager) : Prop where
  table : after.table = m.table
  nextId : after.nextId = m.nextId
  bans : after.bannedAddresses = m.bannedAddresses

theorem SameTable.refl (m : P2PPeerManager) : SameTable m m := ⟨rfl, rfl, rfl⟩

theorem SameTable.trans {m'' : P2PPeerManager} (h : SameTable m m') (h' : SameTable m' m'') : SameTable m m'' :=
  ⟨h'.table.trans h.table, h'.nextId.trans h.nextId, h'.bans.trans h.bans⟩

theorem SameTable.peers (h : SameTable m m') : m'.peers = m.peers := congrArg (List.map Prod.snd) h.table

theorem rememberPeerEndpoint_same (endpoint : P2PPeerEndpoint) (m : P2PPeerManager) :
    SameTable m (m.rememberPeerEndpoint endpoint).2 := by
  unfold rememberPeerEndpoint
  split
  · exact .refl m
  · split
    · exact .refl m
    · split
      · exact .refl m
      · exact ⟨rfl, rfl, rfl⟩

theorem rememberPeerEndpoints_same (endpoints : List P2PPeerEndpoint) : ∀ m : P2PPeerManager,
    SameTable m (m.rememberPeerEndpoints endpoints).2 := by
  induction endpoints with
  | nil => exact .refl
  | cons endpoint rest ih =>
    intro m
    have hfirst := rememberPeerEndpoint_same endpoint m
    rw [rememberPeerEndpoints]
    split
    · rename_i h
      rwa [h] at hfirst
    · rename_i h
      rw [h] at hfirst
      exact hfirst.trans (ih _)

theorem handlePeers_same (payload : Bytes) (m : P2PPeerManager) : SameTable m (m.handlePeers payload).2 := by
  unfold handlePeers
  split
  · exact .refl m
  · exact rememberPeerEndpoints_same ..

/-- The sections that change what is remembered. -/
inductive Learns (m : P2PPeerManager) : P2PPeerManager → Prop
  | peers (payload : Bytes) : Learns m (m.handlePeers payload).2
  | remember (endpoint : P2PPeerEndpoint) : Learns m (m.rememberPeerEndpoint endpoint).2
  | forget (address : Bytes) (port : UInt16) : Learns m (m.forgetPeerEndpoint address port)

theorem Learns.same (h : Learns m m') : SameTable m m' := by
  cases h with
  | peers payload => exact handlePeers_same payload m
  | remember endpoint => exact rememberPeerEndpoint_same endpoint m
  | forget address port => exact ⟨rfl, rfl, rfl⟩

end P2PPeerManager

namespace P2PServer

open P2PPeerManager

variable {s : P2PServer}

theorem outboundGate_effect (address : Bytes) (port : UInt16) (s : P2PServer) :
    Shrinks s.manager (s.outboundGate address port).2.manager ∧ (s.outboundGate address port).2.now = s.now ∧
      ((s.outboundGate address port).1 = .ok () →
        address ≠ [] ∧ port ≠ 0 ∧ ∃ host, cString address = Ipv4.dotted host) := by
  obtain ⟨-, hshrinks, -⟩ := isBannedLocked_eq s.now address s.manager
  have hrefused : ∀ {what : String}, (fail what : Result Unit) = .ok () →
      address ≠ [] ∧ port ≠ 0 ∧ ∃ host, cString address = Ipv4.dotted host := nofun
  unfold outboundGate
  split
  · exact ⟨Shrinks.refl _, rfl, hrefused⟩
  · split
    · exact ⟨Shrinks.refl _, rfl, hrefused⟩
    · rename_i haddress
      split
      · exact ⟨Shrinks.refl _, rfl, hrefused⟩
      · rename_i hport
        split
        · exact ⟨Shrinks.refl _, rfl, hrefused⟩
        · split
          · exact ⟨Shrinks.refl _, rfl, hrefused⟩
          · rename_i host hhost
            split
            · exact ⟨Shrinks.refl _, rfl, hrefused⟩
            · split
              · rename_i h
                rw [h] at hshrinks
                exact ⟨hshrinks, rfl, hrefused⟩
              · rename_i h
                rw [h] at hshrinks
                split
                · exact ⟨hshrinks, rfl, hrefused⟩
                · exact ⟨hshrinks, rfl, fun _ => ⟨by simpa using haddress, hport, host, Ipv4.inetPton_iff.mp hhost⟩⟩

/-- What one section can do to the table. `new` are the addresses it may connect, `banned` those it may ban. -/
inductive Effect (new banned : Bytes → Prop) (s after : P2PServer) : Prop
  | shrinks : Shrinks s.manager after.manager → s.now ≤ after.now → Effect new banned s after
  | adds (address : Bytes) : new address → Adds s.now address s.manager after.manager → after.now = s.now →
    Effect new banned s after
  | bans (address : Bytes) : banned address → after = s.withManager (s.manager.ban s.now address) →
    Effect new banned s after
  | remembers {m : P2PPeerManager} : Learns s.manager m → after = s.withManager m → Effect new banned s after

theorem Effect.now_le {new banned : Bytes → Prop} {after : P2PServer} (h : Effect new banned s after) : s.now ≤ after.now := by
  cases h with
  | shrinks _ hnow => exact hnow
  | adds _ _ _ hnow => exact Nat.le_of_eq hnow.symm
  | bans _ _ hafter => exact Nat.le_of_eq (by rw [hafter]; rfl)
  | remembers _ hafter => exact Nat.le_of_eq (by rw [hafter]; rfl)

theorem addPeer_server_effect {new banned : Bytes → Prop} {address : Bytes} (hnew : new address) (valid : Bool)
    (port : UInt16) (s : P2PServer) :
    Effect new banned s (s.withManager (s.manager.addPeer s.now valid address port).2) := by
  obtain h | h := addPeer_effect s.now valid address port s.manager
  · exact .shrinks h (Nat.le_refl _)
  · exact .adds address hnew h rfl

theorem begin_effect (call : PeerCall) (s : P2PServer) :
    Effect (fun address => ∃ valid port, call = .addPeer valid address port) (fun address => call = .ban address) s
      (s.begin call).1 := by
  have hnow := Nat.le_refl s.now
  cases call with
  | accept host port =>
    unfold begin
    dsimp only
    split
    · exact .shrinks (Shrinks.refl _) hnow
    · exact .shrinks (Shrinks.refl _) hnow
  | connect address port =>
    obtain ⟨hshrinks, htime, -⟩ := outboundGate_effect address port s
    unfold begin
    dsimp only
    split
    · rename_i h
      rw [h] at hshrinks htime
      exact .shrinks hshrinks (Nat.le_of_eq htime.symm)
    · rename_i h
      rw [h] at hshrinks htime
      exact .shrinks hshrinks (Nat.le_of_eq htime.symm)
  | addPeer valid address port => exact addPeer_server_effect ⟨valid, port, rfl⟩ valid port s
  | removePeer id => exact .shrinks (removePeer_shrinks id _) hnow
  | clear => exact .shrinks (clear_shrinks _) hnow
  | penalize id amount => exact .shrinks (penalizeScore_shrinks id amount _) hnow
  | reward id amount => exact .shrinks (reward_shrinks id amount _) hnow
  | ban address => exact .bans address rfl rfl
  | unban address => exact .shrinks (unban_shrinks address _) hnow
  | remember endpoint => exact .remembers (.remember endpoint) rfl
  | forget address port => exact .remembers (.forget address port) rfl
  | peers payload => exact .remembers (.peers payload) rfl
  | tick elapsed => exact .shrinks (Shrinks.refl _) (Nat.le_add_right _ _)

theorem advance_effect (greeted : Bool) (s : P2PServer) (task : PeerTask) :
    Effect (fun address => ∃ port, task = .connecting address port) (fun address => ∃ id, task = .banning id address) s
      (s.advance greeted task).1 := by
  cases task with
  | connecting address port =>
    unfold advance
    dsimp only
    split
    · exact .shrinks (Shrinks.refl _) (Nat.le_refl _)
    · exact addPeer_server_effect ⟨port, rfl⟩ true port s
  | banning id address => exact .bans address ⟨id, rfl⟩ rfl
  | removing id => exact .shrinks (removePeer_shrinks id _) (Nat.le_refl _)

end P2PServer

end Caesar
