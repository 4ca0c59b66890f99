import Caesar.AdvertiseSound

/-!
# Bans and connections

Bans are by address, and `penalize` removes one connection. A peer whose address is
banned is on its way out in every state of a run exactly when each ban finds no other
connection from that address (`no_banned_connection_iff`).
-/

namespace Caesar

open Codec
open Interleave (mem_eraseIdx_of_ne mem_set_iff_of_ne)
open Interleave.System (run_fair_cons run_fair_nil)
open P2PPeerManager (of_kept inWindow_of_bans)

abbrev PeerConfig := Interleave.Config P2PServer PeerTask

/-- Every connected peer whose address is banned is one that a call of `penalize` has still to remove. -/
def Covered (c : PeerConfig) : Prop :=
  ∀ info ∈ c.shared.manager.peers, c.shared.manager.inWindow c.shared.now info.address = true →
    .removing info.id ∈ c.threads

/-- When the section bans an address, every connection from there is about to be removed. -/
def BansAlone (c : PeerConfig) : Interleave.Event PeerCall Bool → Prop
  | .spawn call => ∀ address, call = .ban address → ∀ info ∈ c.shared.manager.peers, info.address = address →
    .removing info.id ∈ c.threads
  | .advance i _ => ∀ id address, c.threads[i]? = some (.banning id address) →
    ∀ info ∈ c.shared.manager.peers, info.address = address → info.id = id ∨ .removing info.id ∈ c.threads

section
variable {s after : P2PServer} {threads threads' : List PeerTask}

theorem covered_effect {new banned : Bytes → Prop} (h : P2PServer.Effect new banned s after)
    (hbanned : ∀ address, ¬ banned address) (hc : Covered ⟨s, threads⟩)
    (hthreads : ∀ info ∈ after.manager.peers, .removing info.id ∈ threads → .removing info.id ∈ threads') :
    Covered ⟨after, threads'⟩ := by
  have hkept := @of_kept s.manager
    (fun id address => s.manager.inWindow s.now address = true → PeerTask.removing id ∈ threads) hc
  intro info hinfo hwindow
  apply hthreads info hinfo
  cases h with
  | shrinks hshrinks hnow =>
    apply hkept (hshrinks.peers info hinfo)
    exact inWindow_of_bans hnow hshrinks.bans hwindow
  | adds address _ hadds hnow =>
    dsimp only at hwindow
    rw [hnow] at hwindow
    rcases hadds.peers info hinfo with hold | haddress
    · apply hkept hold
      exact inWindow_of_bans (Nat.le_refl _) hadds.bans hwindow
    · -- the new peer was let in because its address was free
      rw [haddress, hadds.free] at hwindow
      cases hwindow
  | bans address haddress => exact absurd haddress (hbanned address)
  | remembers hlearns hafter =>
    subst hafter
    dsimp only [P2PServer.withManager, P2PPeerManager.inWindow] at hinfo hwindow
    rw [hlearns.same.peers] at hinfo
    rw [hlearns.same.bans] at hwindow
    exact hc info hinfo hwindow

theorem covered_ban (address : Bytes) (hc : Covered ⟨s, threads⟩)
    (hthreads : ∀ id, .removing id ∈ threads → .removing id ∈ threads') :
    Covered ⟨s.withManager (s.manager.ban s.now address), threads'⟩ ↔
      ∀ info ∈ s.manager.peers, info.address = address → .removing info.id ∈ threads' := by
  constructor
  · intro h info hinfo haddress
    exact h info hinfo ((P2PPeerManager.ban_inWindow ..).mpr (Or.inl haddress))
  · intro h info hinfo hwindow
    rcases (P2PPeerManager.ban_inWindow ..).mp hwindow with haddress | hbefore
    · exact h info hinfo haddress
    · exact hthreads _ (hc info hinfo hbefore)

theorem begin_covered (call : PeerCall) (hc : Covered ⟨s, threads⟩) :
    Covered (peerSystem.step ⟨s, threads⟩ (.spawn call)) ↔ BansAlone ⟨s, threads⟩ (.spawn call) := by
  show Covered ⟨(s.begin call).1, threads ++ (s.begin call).2.toList⟩ ↔ _
  by_cases hban : ∃ address, call = .ban address
  · obtain ⟨address, rfl⟩ := hban
    have hthreads : threads ++ (s.begin (.ban address)).2.toList = threads := List.append_nil threads
    rw [hthreads]
    refine (covered_ban address hc fun _ h => h).trans ?_
    simp [BansAlone]
  · have hcovered : Covered ⟨(s.begin call).1, threads ++ (s.begin call).2.toList⟩ :=
      covered_effect (P2PServer.begin_effect call s) (fun address h => hban ⟨address, h⟩) hc
        fun _ _ h => List.mem_append_left _ h
    exact iff_of_true hcovered fun address h => absurd ⟨address, h⟩ hban

theorem advance_covered (i : Nat) (greeted : Bool) (hc : Covered ⟨s, threads⟩) :
    Covered (peerSystem.step ⟨s, threads⟩ (.advance i greeted)) ↔ BansAlone ⟨s, threads⟩ (.advance i greeted) := by
  cases hi : threads[i]? with
  | none =>
    have hstep : peerSystem.step ⟨s, threads⟩ (.advance i greeted) = ⟨s, threads⟩ := by
      simp [Interleave.System.step, hi]
    rw [hstep]
    exact iff_of_true hc fun id address h => by simp [hi] at h
  | some task =>
    have heffect := P2PServer.advance_effect greeted s task
    cases task with
    | connecting address port =>
      have hstep : peerSystem.step ⟨s, threads⟩ (.advance i greeted) =
          ⟨(s.advance greeted (.connecting address port)).1, threads.eraseIdx i⟩ := by
        simp only [Interleave.System.step, hi, peerSystem, P2PServer.advance]
        split <;> rfl
      rw [hstep]
      refine iff_of_true (covered_effect heffect (by simp) hc ?_) fun id address h => by simp [hi] at h
      intro info _ h
      exact mem_eraseIdx_of_ne hi h (by simp)
    | banning id address =>
      have hstep : peerSystem.step ⟨s, threads⟩ (.advance i greeted) =
          ⟨s.withManager (s.manager.ban s.now address), threads.set i (.removing id)⟩ := by
        simp [Interleave.System.step, hi, peerSystem, P2PServer.advance]
      have hset : ∀ other, .removing other ∈ threads.set i (.removing id) ↔ other = id ∨ .removing other ∈ threads := by
        intro other
        rw [mem_set_iff_of_ne hi (by simp), PeerTask.removing.injEq]
      rw [hstep]
      refine (covered_ban address hc fun other h => (hset other).mpr (Or.inr h)).trans ?_
      simp [BansAlone, hi, hset]
    | removing id =>
      have hstep : peerSystem.step ⟨s, threads⟩ (.advance i greeted) =
          ⟨s.withManager (s.manager.removePeer id), threads.eraseIdx i⟩ := by
        simp [Interleave.System.step, hi, peerSystem, P2PServer.advance]
      rw [hstep]
      refine iff_of_true (covered_effect heffect (by simp) hc ?_) fun id address h => by simp [hi] at h
      intro info hinfo h
      have hother : info.id ≠ id := (P2PPeerManager.mem_removePeer.mp hinfo).2
      exact mem_eraseIdx_of_ne hi h (by simpa using hother)

end

theorem no_banned_connection_iff {server : P2PServer} (hnew : server.manager.peers = [])
    (events : List (Interleave.Event PeerCall Bool)) :
    ((∀ before, before <+: events → Covered (peerSystem.run before ⟨server, []⟩)) ↔
      ∀ before event, before ++ [event] <+: events → BansAlone (peerSystem.run before ⟨server, []⟩) event) ∧
    (Covered (peerSystem.run events ⟨server, []⟩) →
      (∀ id, .removing id ∉ (peerSystem.run events ⟨server, []⟩).threads) →
      ∀ info ∈ (peerSystem.run events ⟨server, []⟩).shared.manager.peers,
        (peerSystem.run events ⟨server, []⟩).shared.manager.inWindow
          (peerSystem.run events ⟨server, []⟩).shared.now info.address = false) := by
  refine ⟨Interleave.System.run_throughout_iff ?_ ?_, ?_⟩
  · intro c event _ hc
    cases event with
    | spawn call => exact begin_covered call hc
    | advance i greeted => exact advance_covered i greeted hc
  · intro info hinfo
    simp [hnew] at hinfo
  · intro hcovered hreturned info hinfo
    by_contra hwindow
    exact hreturned info.id (hcovered info hinfo (by simpa using hwindow))

def toyPenalized (host host' : UInt32) : List (Interleave.Event PeerCall Bool) :=
  toyNeighbours host host' ++ [.spawn (.penalize 1 100), .advance 0 true, .advance 0 true]

theorem bansAlone_advance {c : PeerConfig} {i : Nat} {greeted : Bool} (task : PeerTask) (hi : c.threads[i]? = some task)
    (htask : ∀ id address, task ≠ .banning id address) : BansAlone c (.advance i greeted) := by
  intro id address h
  exact absurd (Option.some.inj (hi.symm.trans h)) (htask id address)

theorem toyPenalized_bansAlone : ∀ before event, before ++ [event] <+: toyPenalized 0x08080808 0x09090909 →
    BansAlone (peerSystem.run before ⟨toyServer, []⟩) event := by
  have hbanning : ∀ c : PeerConfig, c.threads = [.banning 1 (Text.ascii "8.8.8.8")] →
      (∀ info ∈ c.shared.manager.peers, info.address = Text.ascii "8.8.8.8" → info.id = 1) →
      BansAlone c (.advance 0 true) := by
    intro c hthreads hpeers id address h info hinfo haddress
    rw [hthreads] at h
    obtain ⟨rfl, rfl⟩ := PeerTask.banning.inj (Option.some.inj h)
    exact Or.inl (hpeers info hinfo haddress)
  refine run_fair_cons nofun (run_fair_cons ?_ (run_fair_cons nofun (run_fair_cons ?_
    (run_fair_cons nofun (run_fair_cons ?_ (run_fair_cons ?_ run_fair_nil))))))
  · exact bansAlone_advance (.connecting (Text.ascii "8.8.8.8") 5000) (by decide +kernel) nofun
  · exact bansAlone_advance (.connecting (Text.ascii "9.9.9.9") 6000) (by decide +kernel) nofun
  · exact hbanning _ (by decide +kernel) (by decide +kernel)
  · exact bansAlone_advance (.removing 1) (by decide +kernel) nofun

theorem no_banned_connection_toy :
    (peerSystem.run (toyPenalized 0x08080808 0x09090909) ⟨toyServer, []⟩).shared.manager.peers =
      [⟨2, Text.ascii "9.9.9.9", 6000, 100⟩] ∧
    (peerSystem.run (toyPenalized 0x08080808 0x09090909) ⟨toyServer, []⟩).shared.manager.inWindow
      (peerSystem.run (toyPenalized 0x08080808 0x09090909) ⟨toyServer, []⟩).shared.now (Text.ascii "9.9.9.9") = false := by
  have hpeers : (peerSystem.run (toyPenalized 0x08080808 0x09090909) ⟨toyServer, []⟩).shared.manager.peers =
      [⟨2, Text.ascii "9.9.9.9", 6000, 100⟩] := by
    decide +kernel
  have hthreads : (peerSystem.run (toyPenalized 0x08080808 0x09090909) ⟨toyServer, []⟩).threads = [] := by decide +kernel
  obtain ⟨hiff, hfree⟩ := no_banned_connection_iff (show toyServer.manager.peers = [] from rfl)
    (toyPenalized 0x08080808 0x09090909)
  have hcovered := hiff.mpr toyPenalized_bansAlone _ (List.prefix_refl _)
  exact ⟨hpeers, hfree hcovered (by simp [hthreads]) _ (by rw [hpeers]; exact List.mem_singleton_self _)⟩

/-- From one address the other connection stays, although `penalize` has returned. -/
theorem banned_neighbour_stays :
    (peerSystem.run (toyPenalized 0x08080808 0x08080808) ⟨toyServer, []⟩).threads = [] ∧
    (peerSystem.run (toyPenalized 0x08080808 0x08080808) ⟨toyServer, []⟩).shared.manager.peers =
      [⟨2, Text.ascii "8.8.8.8", 6000, 100⟩] ∧
    (peerSystem.run (toyPenalized 0x08080808 0x08080808) ⟨toyServer, []⟩).shared.manager.inWindow
      (peerSystem.run (toyPenalized 0x08080808 0x08080808) ⟨toyServer, []⟩).shared.now (Text.ascii "8.8.8.8") = true := by
  decide +kernel

end Caesar
