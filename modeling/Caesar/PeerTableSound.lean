import Caesar.BanSound

/-!
# The table of peers over a run

A section takes entries away, changes a score, or adds one entry under the next id
(`TableEffect`). From this the size of the table, its endpoints and its ids follow
for every run, as long as the 64-bit counter does not come round. A score leaves its
range exactly when a reward overflows.
-/

namespace Caesar

open Codec

/-! ## What a section does to the table -/

namespace P2PPeerManager

/-- One entry is new, under the next id. Nothing is stored over an entry that has this id already. -/
structure AddsEntry (address : Bytes) (port : UInt16) (m after : P2PPeerManager) : Prop where
  room : m.table.length < maxPeers
  free : ⟨address, port⟩ ∉ m.peers.map P2PPeerInfo.endpoint
  table : after.table = m.table ∨
    after.table = (m.nextId, ⟨m.nextId, address, port, peerScoreInitial⟩) :: m.table
  nextId : after.nextId = m.nextId + 1

/-- `given` is the id that the section gives out; a score changes only when the section is `rescoring`. -/
inductive TableEffect (rescoring : Prop) (given : Option UInt64) (m after : P2PPeerManager) : Prop
  | removes : given = none → after.table.Sublist m.table → after.nextId = m.nextId → TableEffect rescoring given m after
  | rescores (id : UInt64) (score : Int) : rescoring → given = none → after = m.setScore id score →
    TableEffect rescoring given m after
  | adds (address : Bytes) (port : UInt16) : given = some m.nextId → AddsEntry address port m after →
    TableEffect rescoring given m after

variable {m after : P2PPeerManager} {rescoring : Prop} {given : Option UInt64} {ids : List UInt64}

theorem SameTable.effect (h : SameTable m after) : TableEffect rescoring none m after :=
  .removes rfl (h.table ▸ List.Sublist.refl _) h.nextId

theorem emplace_table (info : P2PPeerInfo) (m : P2PPeerManager) : (m.emplace info).nextId = m.nextId ∧
    ((m.emplace info).table = m.table ∨ (m.emplace info).table = (info.id, info) :: m.table) := by
  unfold emplace
  split
  · exact ⟨rfl, Or.inl rfl⟩
  · exact ⟨rfl, Or.inr rfl⟩

theorem addPeer_cases (now : Nat) (valid : Bool) (address : Bytes) (port : UInt16) (m : P2PPeerManager) :
    (∃ e, (m.addPeer now valid address port).1 = .error e ∧ (m.addPeer now valid address port).2.table = m.table ∧
      (m.addPeer now valid address port).2.nextId = m.nextId) ∨
    (m.addPeer now valid address port).1 = .ok m.nextId ∧ AddsEntry address port m (m.addPeer now valid address port).2 := by
  obtain ⟨-, -, htable, hnext⟩ := isBannedLocked_eq now address m
  unfold addPeer
  split
  · exact Or.inl ⟨_, rfl, rfl, rfl⟩
  · split
    · exact Or.inl ⟨_, rfl, rfl, rfl⟩
    · rename_i hroom
      split
      · rename_i h
        rw [h] at htable hnext
        exact Or.inl ⟨_, rfl, htable, hnext⟩
      · rename_i unbanned h
        rw [h] at htable hnext
        dsimp only at htable hnext
        have hpeers : unbanned.peers = m.peers := congrArg (List.map Prod.snd) htable
        split
        · exact Or.inl ⟨_, rfl, htable, hnext⟩
        · rename_i hfree
          obtain ⟨hcounter, hentries⟩ := emplace_table ⟨unbanned.nextId, address, port, peerScoreInitial⟩
            { unbanned with nextId := unbanned.nextId + 1 }
          refine Or.inr ⟨congrArg Except.ok hnext, ?_, ?_, ?_, ?_⟩
          · rw [peers, List.length_map] at hroom
            exact Nat.not_le.mp hroom
          · intro hmem
            obtain ⟨info, hinfo, hendpoint⟩ := List.mem_map.mp hmem
            obtain ⟨haddress, hport⟩ := P2PPeerEndpoint.mk.inj hendpoint
            apply hfree
            rw [hpeers, List.any_eq_true]
            exact ⟨info, hinfo, by simp [haddress, hport]⟩
          · rw [← htable, ← hnext]
            exact hentries
          · rw [← hnext]
            exact hcounter

theorem addPeer_table (now : Nat) (valid : Bool) (address : Bytes) (port : UInt16) (m : P2PPeerManager) :
    TableEffect rescoring (m.addPeer now valid address port).1.toOption m (m.addPeer now valid address port).2 := by
  rcases addPeer_cases now valid address port m with ⟨e, hresult, htable, hnext⟩ | ⟨hresult, hadds⟩
  · rw [hresult]
    exact .removes rfl (htable ▸ List.Sublist.refl _) hnext
  · rw [hresult]
    exact .adds address port rfl hadds

/-! ## Size, endpoints and ids -/

/-- The table when these ids were given out, in this order. -/
structure Numbered (ids : List UInt64) (m : P2PPeerManager) : Prop where
  length_le : m.table.length ≤ maxPeers
  endpoints_nodup : (m.peers.map P2PPeerInfo.endpoint).Nodup
  given : ∀ entry ∈ m.table, entry.1 ∈ ids
  ids_eq : ids = (List.range ids.length).map fun i => UInt64.ofNat (i + 1)
  next : m.nextId = UInt64.ofNat (ids.length + 1)

theorem numbered_empty : Numbered [] empty := ⟨Nat.zero_le _, List.nodup_nil, nofun, rfl, rfl⟩

theorem Numbered.sublist (h : Numbered ids m) (hsub : after.table.Sublist m.table) (hnext : after.nextId = m.nextId) :
    Numbered ids after where
  length_le := hsub.length_le.trans h.length_le
  endpoints_nodup := h.endpoints_nodup.sublist ((hsub.map _).map _)
  given entry he := h.given entry (hsub.subset he)
  ids_eq := h.ids_eq
  next := hnext.trans h.next

theorem Numbered.setScore (h : Numbered ids m) (id : UInt64) (score : Int) : Numbered ids (m.setScore id score) where
  length_le := by
    show (m.table.map (rescore id score)).length ≤ maxPeers
    rw [List.length_map]
    exact h.length_le
  endpoints_nodup := by
    have hface : (P2PPeerInfo.endpoint ∘ Prod.snd) ∘ rescore id score = P2PPeerInfo.endpoint ∘ Prod.snd :=
      funext fun entry => (rescore_face id score entry).2.2
    have hendpoints : (m.setScore id score).peers.map P2PPeerInfo.endpoint = m.peers.map P2PPeerInfo.endpoint := by
      rw [peers, peers, List.map_map, List.map_map]
      exact (List.map_map ..).trans (congrArg (List.map · m.table) hface)
    rw [hendpoints]
    exact h.endpoints_nodup
  given entry he := by
    obtain ⟨old, hold, rfl⟩ := List.mem_map.mp he
    rw [(rescore_face id score old).1]
    exact h.given old hold
  ids_eq := h.ids_eq
  next := h.next

theorem Numbered.adds (h : Numbered ids m) {address : Bytes} {port : UInt16} (hadds : AddsEntry address port m after) :
    Numbered (ids ++ [m.nextId]) after := by
  have hids : ids ++ [m.nextId] = (List.range (ids ++ [m.nextId]).length).map fun i => UInt64.ofNat (i + 1) := by
    rw [List.length_append, List.length_singleton, List.range_succ, List.map_append, ← h.ids_eq, h.next]
    rfl
  have hcounter : after.nextId = UInt64.ofNat ((ids ++ [m.nextId]).length + 1) := by
    rw [hadds.nextId, h.next, List.length_append, List.length_singleton]
    exact (UInt64.ofNat_add (ids.length + 1) 1).symm
  rcases hadds.table with hsame | hmore
  · have hpeers : after.peers = m.peers := congrArg (List.map Prod.snd) hsame
    refine ⟨hsame ▸ h.length_le, hpeers ▸ h.endpoints_nodup, ?_, hids, hcounter⟩
    intro entry he
    rw [hsame] at he
    exact List.mem_append_left _ (h.given entry he)
  · have hpeers : after.peers = ⟨m.nextId, address, port, peerScoreInitial⟩ :: m.peers := congrArg (List.map Prod.snd) hmore
    refine ⟨?_, ?_, ?_, hids, hcounter⟩
    · rw [hmore]
      exact hadds.room
    · rw [hpeers]
      exact List.nodup_cons.mpr ⟨hadds.free, h.endpoints_nodup⟩
    · intro entry he
      rw [hmore] at he
      rcases List.mem_cons.mp he with rfl | hold
      · exact List.mem_append_right _ (by simp)
      · exact List.mem_append_left _ (h.given entry hold)

theorem TableEffect.numbered (h : TableEffect rescoring given m after) (hm : Numbered ids m) :
    Numbered (ids ++ given.toList) after := by
  cases h with
  | removes hgiven hsub hnext =>
    rw [hgiven, Option.toList_none, List.append_nil]
    exact hm.sublist hsub hnext
  | rescores id score _ hgiven hafter =>
    rw [hgiven, Option.toList_none, List.append_nil, hafter]
    exact hm.setScore id score
  | adds address port hgiven hadds =>
    rw [hgiven]
    exact hm.adds hadds

/-- Ids stay apart until the counter comes round. -/
theorem Numbered.nodup (h : Numbered ids m) (hcount : ids.length < 2 ^ 64) : ids.Nodup := by
  rw [h.ids_eq]
  refine List.Nodup.map_on ?_ List.nodup_range
  intro i hi j hj hsame
  rw [List.mem_range] at hi hj
  have hval := congrArg UInt64.toNat hsame
  rw [UInt64.toNat_ofNat', UInt64.toNat_ofNat'] at hval
  omega

theorem Numbered.lt_next (h : Numbered ids m) (hcount : ids.length < 2 ^ 64 - 1) {entry : UInt64 × P2PPeerInfo}
    (he : entry ∈ m.table) : entry.1 < m.nextId := by
  have hmem := h.given entry he
  rw [h.ids_eq] at hmem
  obtain ⟨i, hi, hkey⟩ := List.mem_map.mp hmem
  rw [List.mem_range] at hi
  rw [← hkey, h.next, UInt64.lt_iff_toNat_lt, UInt64.toNat_ofNat', UInt64.toNat_ofNat']
  omega

/-! ## Scores -/

def intMax : Int := 2 ^ 31 - 1

def Scored (m : P2PPeerManager) : Prop := ∀ info ∈ m.peers, peerScoreMin ≤ info.score ∧ info.score ≤ peerScoreMax

theorem wrapInt_of_fits {n : Int} (hlo : -2 ^ 31 ≤ n) (hhi : n ≤ intMax) : wrapInt n = n := by
  unfold intMax at hhi
  simp only [wrapInt, Int.bmod]
  split <;> omega

theorem wrapInt_of_overflow {n : Int} (hlo : intMax < n) (hhi : n < 2 ^ 32) : wrapInt n < 0 := by
  unfold intMax at hlo
  simp only [wrapInt, Int.bmod]
  split <;> omega

theorem TableEffect.scored (h : TableEffect rescoring given m after) (hkeep : ¬ rescoring) (hm : Scored m) :
    Scored after := by
  cases h with
  | removes _ hsub => exact fun info hinfo => hm info ((hsub.map _).subset hinfo)
  | rescores _ _ hrescoring => exact absurd hrescoring hkeep
  | adds address port _ hadds =>
    have hinitial : peerScoreMin ≤ peerScoreInitial ∧ peerScoreInitial ≤ peerScoreMax := by decide
    intro info hinfo
    rcases hadds.table with hsame | hmore
    · rw [peers, hsame] at hinfo
      exact hm info hinfo
    · rw [peers, hmore] at hinfo
      rcases List.mem_cons.mp hinfo with rfl | hold
      · exact hinitial
      · exact hm info hold

theorem mem_of_find {id : UInt64} {info : P2PPeerInfo} (h : m.find id = some info) : (id, info) ∈ m.table := by
  obtain ⟨entry, hfound, rfl⟩ := Option.map_eq_some_iff.mp h
  have hkey : entry.1 = id := by simpa using List.find?_some hfound
  rw [← hkey]
  exact List.mem_of_find?_eq_some hfound

theorem setScore_scored (hm : Scored m) {id : UInt64} {info : P2PPeerInfo} (hfind : m.find id = some info) (score : Int) :
    Scored (m.setScore id score) ↔ peerScoreMin ≤ score ∧ score ≤ peerScoreMax := by
  constructor
  · intro h
    have hentry := List.mem_map_of_mem (f := rescore id score) (mem_of_find hfind)
    have hscore := h _ (List.mem_map_of_mem (f := Prod.snd) hentry)
    simpa [rescore] using hscore
  · intro hscore other hother
    obtain ⟨entry, hentry, rfl⟩ := List.mem_map.mp hother
    obtain ⟨old, hold, rfl⟩ := List.mem_map.mp hentry
    by_cases hkey : old.1 = id
    · simpa [rescore, hkey] using hscore
    · simpa [rescore, hkey] using hm old.2 (List.mem_map_of_mem hold)

theorem penalizeScore_scored (hm : Scored m) (id : UInt64) {amount : Int} (hlo : 0 ≤ amount) (hhi : amount ≤ intMax) :
    Scored (m.penalizeScore id amount).2 := by
  unfold penalizeScore
  cases hfind : m.find id with
  | none => exact hm
  | some info =>
    obtain ⟨hmin, hmax⟩ := hm info (List.mem_map_of_mem (f := Prod.snd) (mem_of_find hfind))
    unfold peerScoreMin at hmin
    unfold peerScoreMax at hmax
    unfold intMax at hhi
    have hwrap : wrapInt (info.score - amount) = info.score - amount :=
      wrapInt_of_fits (by omega) (by unfold intMax; omega)
    dsimp only
    rw [hwrap]
    by_cases hban : info.score - amount ≤ banThreshold
    · rw [if_pos hban]
      exact (setScore_scored hm hfind _).mpr (by decide)
    · rw [if_neg hban]
      unfold banThreshold at hban
      apply (setScore_scored hm hfind _).mpr
      unfold peerScoreMin peerScoreMax
      omega

theorem reward_scored (hm : Scored m) (id : UInt64) {amount : Int} (hlo : 0 ≤ amount) (hhi : amount ≤ intMax) :
    Scored (m.reward id amount) ↔ ∀ info, m.find id = some info → info.score + amount ≤ intMax := by
  unfold reward
  cases hfind : m.find id with
  | none => exact iff_of_true hm nofun
  | some info =>
    obtain ⟨hmin, hmax⟩ := hm info (List.mem_map_of_mem (f := Prod.snd) (mem_of_find hfind))
    unfold peerScoreMin at hmin
    unfold peerScoreMax at hmax
    dsimp only
    rw [setScore_scored hm hfind]
    simp only [Option.some.injEq, forall_eq']
    unfold peerScoreMin peerScoreMax
    constructor
    · intro hrange
      by_contra hover
      have hneg := wrapInt_of_overflow (Int.not_le.mp hover) (by unfold intMax at hhi; omega)
      rw [if_neg (by omega)] at hrange
      omega
    · intro hfits
      rw [wrapInt_of_fits (by omega) hfits]
      split <;> omega

/-! ## A call that throws -/

theorem addPeerNotify_throws {callback : UInt64 → Result Unit} {now : Nat} {valid : Bool} {address : Bytes} {port : UInt16}
    {e : Error} (h : m.addPeerNotify callback now valid address port = (.error e, after)) :
    after.table = m.table ∧ after.nextId = m.nextId ∨ callback m.nextId = .error e := by
  have hcases := addPeer_cases now valid address port m
  rcases hadd : m.addPeer now valid address port with ⟨result, added⟩
  rw [hadd] at hcases
  rw [addPeerNotify, hadd] at h
  obtain ⟨hresult, rfl⟩ := Prod.mk.inj h
  rcases hcases with ⟨-, -, hsame⟩ | ⟨hok, -⟩
  · exact Or.inl hsame
  · right
    dsimp only at hok
    rw [hok] at hresult
    cases hcallback : callback m.nextId with
    | error e' => simpa [hcallback, bind, Except.bind] using hresult
    | ok _ => simp [hcallback, bind, Except.bind, pure, Except.pure] at hresult

end P2PPeerManager

/-! ## Runs -/

open P2PPeerManager

/-- The id that a section gives out. -/
def givenId (c : PeerConfig) : Interleave.Event PeerCall Bool → Option UInt64
  | .spawn (.addPeer valid address port) => (c.shared.manager.addPeer c.shared.now valid address port).1.toOption
  | .spawn _ => none
  | .advance i greeted =>
    match c.threads[i]? with
    | some (.connecting address port) =>
      if !greeted || !c.shared.running then none
      else (c.shared.manager.addPeer c.shared.now true address port).1.toOption
    | _ => none

def givenIds : List (Interleave.Event PeerCall Bool) → PeerConfig → List UInt64
  | [], _ => []
  | event :: rest, c => (givenId c event).toList ++ givenIds rest (peerSystem.step c event)

def Rescoring : Interleave.Event PeerCall Bool → Prop
  | .spawn (.penalize _ _) => True
  | .spawn (.reward _ _) => True
  | _ => False

theorem outboundGate_table (address : Bytes) (port : UInt16) (s : P2PServer) :
    (s.outboundGate address port).2.manager.table = s.manager.table ∧
      (s.outboundGate address port).2.manager.nextId = s.manager.nextId := by
  obtain ⟨-, -, hbanned⟩ := isBannedLocked_eq s.now address s.manager
  unfold P2PServer.outboundGate
  repeat' split
  all_goals simp_all

theorem begin_table (call : PeerCall) (s : P2PServer) (threads : List PeerTask) :
    TableEffect (Rescoring (.spawn call)) (givenId ⟨s, threads⟩ (.spawn call)) s.manager (s.begin call).1.manager := by
  have hsame {rescoring} : TableEffect rescoring none s.manager s.manager := (SameTable.refl s.manager).effect
  cases call with
  | accept host port =>
    unfold P2PServer.begin
    dsimp only
    split
    · exact hsame
    · exact hsame
  | connect address port =>
    obtain ⟨htable, hnext⟩ := outboundGate_table address port s
    unfold P2PServer.begin
    dsimp only
    split
    · rename_i h
      rw [h] at htable hnext
      exact .removes rfl (htable ▸ List.Sublist.refl _) hnext
    · rename_i h
      rw [h] at htable hnext
      exact .removes rfl (htable ▸ List.Sublist.refl _) hnext
  | addPeer valid address port => exact addPeer_table s.now valid address port s.manager
  | removePeer id => exact .removes rfl List.filter_sublist rfl
  | clear => exact .removes rfl (List.nil_sublist _) rfl
  | penalize id amount =>
    show TableEffect True none s.manager (s.manager.penalizeScore id amount).2
    unfold penalizeScore
    split
    · exact hsame
    · dsimp only
      split
      · exact .rescores id _ trivial rfl rfl
      · exact .rescores id _ trivial rfl rfl
  | reward id amount =>
    show TableEffect True none s.manager (s.manager.reward id amount)
    unfold reward
    split
    · exact hsame
    · exact .rescores id _ trivial rfl rfl
  | remember endpoint => exact (Learns.remember endpoint).same.effect
  | forget address port => exact (Learns.forget address port).same.effect
  | peers payload => exact (Learns.peers payload).same.effect
  | ban address => exact .removes rfl (List.Sublist.refl _) rfl
  | unban address => exact .removes rfl (List.Sublist.refl _) rfl
  | tick elapsed => exact hsame

theorem advance_table (i : Nat) (greeted : Bool) (c : PeerConfig) :
    TableEffect False (givenId c (.advance i greeted)) c.shared.manager
      (peerSystem.step c (.advance i greeted)).shared.manager := by
  have hsame : TableEffect False none c.shared.manager c.shared.manager := (SameTable.refl _).effect
  rw [Interleave.System.step, givenId]
  cases hi : c.threads[i]? with
  | none => exact hsame
  | some task =>
    dsimp only
    cases task with
    | connecting address port =>
      simp only [peerSystem, P2PServer.advance]
      by_cases hend : (!greeted || !c.shared.running) = true
      · rw [if_pos hend, if_pos hend]
        exact hsame
      · rw [if_neg hend, if_neg hend]
        exact addPeer_table c.shared.now true address port c.shared.manager
    | banning id address => exact .removes rfl (List.Sublist.refl _) rfl
    | removing id => exact .removes rfl List.filter_sublist rfl

theorem step_table (c : PeerConfig) (event : Interleave.Event PeerCall Bool) :
    TableEffect (Rescoring event) (givenId c event) c.shared.manager (peerSystem.step c event).shared.manager := by
  cases event with
  | spawn call => exact begin_table call c.shared c.threads
  | advance i greeted => exact advance_table i greeted c

theorem run_numbered {events : List (Interleave.Event PeerCall Bool)} : ∀ {c : PeerConfig} {ids : List UInt64},
    Numbered ids c.shared.manager →
      Numbered (ids ++ givenIds events c) (peerSystem.run events c).shared.manager := by
  induction events with
  | nil =>
    intro c ids h
    rw [givenIds, List.append_nil]
    exact h
  | cons event rest ih =>
    intro c ids h
    have hrest := ih ((step_table c event).numbered h)
    rw [List.append_assoc] at hrest
    exact hrest

/-- The amounts are values of an `int`. -/
def IntAmount : PeerCall → Prop
  | .penalize _ amount => (amount : Int) ≤ intMax
  | .reward _ amount => (amount : Int) ≤ intMax
  | _ => True

/-- A reward does not overflow. -/
def RewardFits (c : PeerConfig) (event : Interleave.Event PeerCall Bool) : Prop :=
  ∀ id (amount : Nat), event = .spawn (.reward id amount) →
    ∀ info, c.shared.manager.find id = some info → info.score + amount ≤ intMax

theorem step_scored {c : PeerConfig} {event : Interleave.Event PeerCall Bool}
    (hint : ∀ call, event = .spawn call → IntAmount call) (h : Scored c.shared.manager) :
    Scored (peerSystem.step c event).shared.manager ↔ RewardFits c event := by
  by_cases hrescoring : Rescoring event
  · cases event with
    | advance i greeted => cases hrescoring
    | spawn call =>
      have hcall := hint call rfl
      cases call with
      | penalize id amount =>
        exact iff_of_true (penalizeScore_scored h id (Int.natCast_nonneg amount) hcall) nofun
      | reward id amount =>
        refine (reward_scored h id (Int.natCast_nonneg amount) hcall).trans ?_
        simp [RewardFits]
      | _ => cases hrescoring
  · refine iff_of_true ((step_table c event).scored hrescoring h) ?_
    intro id amount hevent
    subst hevent
    exact absurd trivial hrescoring

theorem peer_table_invariant {server : P2PServer} (hnew : server.manager = .empty)
    {events : List (Interleave.Event PeerCall Bool)} (hint : Interleave.System.Admits IntAmount events) :
    let m := (peerSystem.run events ⟨server, []⟩).shared.manager
    let ids := givenIds events ⟨server, []⟩
    (m.table.length ≤ maxPeers ∧ (m.table.map fun entry => (entry.2.address, entry.2.port)).Nodup ∧
      (m.table.map Prod.fst).Nodup ∧ ∀ entry ∈ m.table, entry.1 = entry.2.id) ∧
    (ids.length < 2 ^ 64 - 1 → ids.Nodup ∧ ∀ entry ∈ m.table, entry.1 ∈ ids ∧ entry.1 < m.nextId) ∧
    ((∀ before, before <+: events → ∀ info ∈ (peerSystem.run before ⟨server, []⟩).shared.manager.peers,
        peerScoreMin ≤ info.score ∧ info.score ≤ peerScoreMax) ↔
      ∀ before event, before ++ [event] <+: events → RewardFits (peerSystem.run before ⟨server, []⟩) event) ∧
    ∀ (callback : UInt64 → Result Unit) (now : Nat) (valid : Bool) (address : Bytes) (port : UInt16) (e : Error)
      (after : P2PPeerManager), m.addPeerNotify callback now valid address port = (.error e, after) →
      after.table = m.table ∧ after.nextId = m.nextId ∨ callback m.nextId = .error e := by
  intro m ids
  have hm : Numbered ids m := by
    have hstart : Numbered [] server.manager := hnew ▸ numbered_empty
    exact run_numbered (c := ⟨server, []⟩) hstart
  refine ⟨⟨hm.length_le, ?_, m.keys_nodup, m.keyed⟩, ?_, ?_, ?_⟩
  · have hpairs := hm.endpoints_nodup
    rw [peers, List.map_map] at hpairs
    refine List.Nodup.of_map (fun pair : Bytes × UInt16 => (⟨pair.1, pair.2⟩ : P2PPeerEndpoint)) ?_
    rw [List.map_map]
    exact hpairs
  · intro hcount
    exact ⟨hm.nodup (by omega), fun entry he => ⟨hm.given entry he, hm.lt_next hcount he⟩⟩
  · refine Interleave.System.run_throughout_iff (Q := fun c : PeerConfig => Scored c.shared.manager) ?_ ?_
    · intro c event hevent hc
      exact step_scored (fun call h => hint call (h ▸ hevent)) hc
    · show Scored server.manager
      rw [hnew]
      exact nofun
  · intro callback now valid address port e after h
    exact addPeerNotify_throws h

def rewardedPeer (amount : Nat) : List (Interleave.Event PeerCall Bool) :=
  [.spawn (.addPeer true (Text.ascii "8.8.8.8") 5000), .spawn (.reward 1 amount), .spawn (.removePeer 1),
    .spawn (.addPeer true (Text.ascii "8.8.8.8") 5000)]

theorem peer_table_invariant_toy : givenIds (rewardedPeer 150) ⟨toyServer, []⟩ = [1, 2] ∧
    (givenIds (rewardedPeer 150) ⟨toyServer, []⟩).Nodup := by
  have hids : givenIds (rewardedPeer 150) ⟨toyServer, []⟩ = [1, 2] := by decide +kernel
  have hint : Interleave.System.Admits IntAmount (rewardedPeer 150) := by
    intro call hcall
    simp only [rewardedPeer, List.mem_cons, Interleave.Event.spawn.injEq, List.not_mem_nil, or_false] at hcall
    obtain rfl | rfl | rfl | rfl := hcall
    all_goals simp [IntAmount, intMax]
  obtain ⟨-, hunique, -⟩ := peer_table_invariant (show toyServer.manager = .empty from rfl) hint
  exact ⟨hids, (hunique (by rw [hids]; decide)).1⟩

/-- A reward that overflows leaves a score below the minimum, and `add_peer` throws with the peer in the table when the
callback does. -/
theorem reward_overflows_callback_throws :
    (peerSystem.run ((rewardedPeer 2147483647).take 2) ⟨toyServer, []⟩).shared.manager.table =
      [(1, ⟨1, Text.ascii "8.8.8.8", 5000, -2147483549⟩)] ∧
    (P2PPeerManager.empty.addPeerNotify (fun _ => fail "Resource temporarily unavailable") 0 true (Text.ascii "8.8.8.8")
      5000).1 = fail "Resource temporarily unavailable" ∧
    (P2PPeerManager.empty.addPeerNotify (fun _ => fail "Resource temporarily unavailable") 0 true (Text.ascii "8.8.8.8")
      5000).2.table = [(1, ⟨1, Text.ascii "8.8.8.8", 5000, 100⟩)] := by
  decide +kernel

end Caesar
