import Caesar.Lib.Windows
import Caesar.Limiter
import Caesar.PeerManagerSound

/-!
# How many connections a host gets

The limiter is a table of fixed windows: `allowConnectionAttempt_step` says so for
one attempt, and the bounds for whole runs are those of the windows. What is refused
for want of room depends on the windows that are open, and not on those that are over.
-/

namespace Caesar

open Codec Windows

/-! ## One attempt -/

def counters (table : ConnectionAttempts) (address : Bytes) : Windows.Entry :=
  (table.find? address).map fun state => (state.windowStart, state.attempts)

section
variable {table : ConnectionAttempts} {now : Nat} {address : Bytes}

theorem counters_of_find {state : ConnectionAttemptState} (h : table.find? address = some state) :
    counters table address = some (state.windowStart, state.attempts) := by simp [counters, h]

theorem counters_eraseExpired : counters (eraseExpired now table) address =
    Windows.expire connectionAttemptWindow now (counters table address) := by
  rw [counters, eraseExpired, OrdMap.find?_filter, counters]
  cases table.find? address with
  | none => rfl
  | some state => simp [Windows.expire, ConnectionAttemptState.expired, Option.filter_some, apply_ite]

theorem counters_insert {state : ConnectionAttemptState} : counters (table.insert address state) =
    Function.update (counters table) address (some (state.windowStart, state.attempts)) := by
  funext other
  by_cases ho : other = address
  · subst ho
    simp [counters]
  · have hne : ¬ address = other := fun e => ho e.symm
    simp [counters, ho, hne]

inductive Attempted (now : Nat) (address : Bytes) (live : ConnectionAttempts) : Bool × ConnectionAttempts → Prop
  | refused : (live.find? address = none → maxTrackedConnectionIps ≤ live.entries.length) →
    Attempted now address live (false, live)
  | opened : live.find? address = none → live.entries.length < maxTrackedConnectionIps →
    Attempted now address live (true, live.insert address ⟨now, 1⟩)
  | counted {state : ConnectionAttemptState} : live.find? address = some state →
    state.attempts < maxConnectionAttemptsPerIp →
    Attempted now address live (true, live.insert address { state with attempts := state.attempts + 1 })

theorem allowConnectionAttempt_cases (now : Nat) (address : Bytes) (table : ConnectionAttempts) :
    Attempted now address (eraseExpired now table) (allowConnectionAttempt now address table) := by
  unfold allowConnectionAttempt
  dsimp only
  split
  · rename_i hfind
    by_cases hfull : (eraseExpired now table).entries.length ≥ maxTrackedConnectionIps
    · rw [if_pos hfull]
      exact .refused fun _ => hfull
    · rw [if_neg hfull]
      exact .opened hfind (Nat.lt_of_not_le hfull)
  · rename_i state hfind
    by_cases hfull : state.attempts ≥ maxConnectionAttemptsPerIp
    · rw [if_pos hfull]
      exact .refused fun hnone => absurd (hfind.symm.trans hnone) nofun
    · rw [if_neg hfull]
      exact .counted hfind (Nat.lt_of_not_le hfull)

variable {r : Bool × ConnectionAttempts}

theorem Attempted.step (h : Attempted now address (eraseExpired now table) r) :
    Windows.Step maxConnectionAttemptsPerIp connectionAttemptWindow now address (counters table) (counters r.2) r.1 := by
  have hlive : ∀ k, counters (eraseExpired now table) k = Windows.expire connectionAttemptWindow now (counters table k) :=
    fun _ => counters_eraseExpired
  cases h with
  | refused => exact .refused hlive
  | opened hfind hroom =>
    have hentry : counters (eraseExpired now table) address = none := by simp [counters, hfind]
    have hrecord : Windows.record now (counters (eraseExpired now table) address) = (now, 1) := by rw [hentry]; rfl
    rw [counters_insert, ← hrecord]
    exact .admitted hlive fun start count h => absurd (hentry.symm.trans h) nofun
  | @counted state hfind hroom =>
    have hentry := counters_of_find hfind
    have hrecord : Windows.record now (counters (eraseExpired now table) address) = (state.windowStart, state.attempts + 1) := by
      rw [hentry]
      rfl
    rw [counters_insert, ← hrecord]
    refine .admitted hlive fun start count h => ?_
    rw [hentry, Option.some.injEq, Prod.mk.injEq] at h
    exact h.2 ▸ hroom

theorem Attempted.tracked (h : Attempted now address (eraseExpired now table) r)
    (hle : table.entries.length ≤ maxTrackedConnectionIps) : r.2.entries.length ≤ maxTrackedConnectionIps := by
  have hfewer : (eraseExpired now table).entries.length ≤ maxTrackedConnectionIps :=
    Nat.le_trans (List.length_filter_le ..) hle
  cases h with
  | refused => exact hfewer
  | opened hfind hroom => exact (OrdMap.length_insert hfind).trans_le hroom
  | counted hfind => exact (OrdMap.length_insert_of_some hfind).trans_le hfewer

theorem Attempted.fresh (h : Attempted now address (eraseExpired now table) r)
    (hover : ∀ state, table.find? address = some state → state.expired now = true)
    (hroom : (eraseExpired now table).entries.length < maxTrackedConnectionIps) : r.1 = true := by
  have hfind : (eraseExpired now table).find? address = none := by
    rw [eraseExpired, OrdMap.find?_filter, Option.filter_eq_none_iff]
    intro state hstate
    simp [hover state hstate]
  cases h with
  | refused hfull => exact absurd hroom (Nat.not_lt.mpr (hfull hfind))
  | opened => rfl
  | counted => rfl

end

/-! ## Whole runs -/

/-- The table after some attempts, and those it let through with the newest first. -/
structure Limiter where
  table : ConnectionAttempts
  admitted : List (Nat × Bytes)

namespace Limiter

def empty : Limiter := ⟨.empty, []⟩

def attempt (l : Limiter) (call : Nat × Bytes) : Limiter :=
  ⟨(allowConnectionAttempt call.1 call.2 l.table).2,
    if (allowConnectionAttempt call.1 call.2 l.table).1 then call :: l.admitted else l.admitted⟩

def run (calls : List (Nat × Bytes)) (l : Limiter) : Limiter := calls.foldl attempt l

abbrev Accounted (now : Nat) (l : Limiter) (histories : Bytes → History maxConnectionAttemptsPerIp connectionAttemptWindow) :
    Prop :=
  Windows.Accounts maxConnectionAttemptsPerIp connectionAttemptWindow now (counters l.table) l.admitted histories

variable {l : Limiter} {calls : List (Nat × Bytes)}

theorem run_tracked (h : l.table.entries.length ≤ maxTrackedConnectionIps) :
    (l.run calls).table.entries.length ≤ maxTrackedConnectionIps := by
  induction calls generalizing l with
  | nil => exact h
  | cons call rest ih => exact ih ((allowConnectionAttempt_cases ..).tracked h)

theorem mem_run_admitted {event : Nat × Bytes} (h : event ∈ (l.run calls).admitted) : event ∈ l.admitted ∨ event ∈ calls := by
  induction calls generalizing l with
  | nil => exact Or.inl h
  | cons call rest ih =>
    rcases ih h with h | h
    · unfold attempt at h
      dsimp only at h
      split at h
      · rcases List.mem_cons.mp h with rfl | h
        · exact Or.inr List.mem_cons_self
        · exact Or.inl h
      · exact Or.inl h
    · exact Or.inr (List.mem_cons_of_mem _ h)

theorem run_accounted {now : Nat} {histories : Bytes → History maxConnectionAttemptsPerIp connectionAttemptWindow}
    (h : l.Accounted now histories) (hnow : ∀ call ∈ calls, now ≤ call.1)
    (hclock : calls.Pairwise fun earlier later => earlier.1 ≤ later.1) :
    ∃ last grown, (∀ t, now ≤ t → (∀ call ∈ calls, call.1 ≤ t) → last ≤ t) ∧ (l.run calls).Accounted last grown ∧
      ∀ address, (histories address).Grows (grown address) := by
  induction calls generalizing l now histories with
  | nil => exact ⟨now, histories, fun _ ht _ => ht, h, fun _ => .refl _⟩
  | cons call rest ih =>
    obtain ⟨hcall, hrest⟩ := List.pairwise_cons.mp hclock
    obtain ⟨grown, hstep, hgrows⟩ := (allowConnectionAttempt_cases call.1 call.2 l.table).step.accounts h
      (hnow call List.mem_cons_self) (by decide) (by decide)
    obtain ⟨last, final, hlast, hfinal, hmore⟩ := ih (l := l.attempt call) hstep hcall hrest
    refine ⟨last, final, ?_, hfinal, fun address => (hgrows address).trans (hmore address)⟩
    intro t _ ht
    exact hlast t (ht call List.mem_cons_self) fun other hother => ht other (List.mem_cons_of_mem _ hother)

theorem empty_accounted : empty.Accounted 0 fun _ => .empty := Windows.Accounts.empty

end Limiter

/-- Windows are counted from the first attempt, so an interval that is not one of them can
have almost twice as many. -/
theorem connection_limiter_bounds (calls : List (Nat × Bytes)) (hclock : calls.Pairwise fun earlier later => earlier.1 ≤ later.1) :
    (Limiter.empty.run calls).table.entries.length ≤ maxTrackedConnectionIps ∧
    (∀ before rest address state, calls = before ++ rest → (Limiter.empty.run before).table.find? address = some state →
      state.attempts ≤ maxConnectionAttemptsPerIp ∧
      state.attempts = within state.windowStart (state.windowStart + connectionAttemptWindow)
        (timesOf address (Limiter.empty.run before).admitted) ∧
      within state.windowStart (state.windowStart + connectionAttemptWindow) (timesOf address (Limiter.empty.run calls).admitted) ≤
        maxConnectionAttemptsPerIp) ∧
    (∀ address since, within since (since + connectionAttemptWindow) (timesOf address (Limiter.empty.run calls).admitted) ≤
      2 * maxConnectionAttemptsPerIp - 1) ∧
    (∀ now address, (∀ call ∈ calls, call.2 = address → call.1 + connectionAttemptWindow ≤ now) →
      ((Limiter.empty.run calls).table.entries.filter fun entry => !entry.2.expired now).length < maxTrackedConnectionIps →
      (allowConnectionAttempt now address (Limiter.empty.run calls).table).1 = true) := by
  obtain ⟨last, grown, -, hall, -⟩ := Limiter.run_accounted Limiter.empty_accounted (fun _ _ => Nat.zero_le _) hclock
  refine ⟨Limiter.run_tracked (Nat.zero_le _), ?_, ?_, ?_⟩
  · rintro before rest address state rfl hstate
    -- the windows open after `before` are among those of the whole run
    obtain ⟨hbefore, hrest, hcross⟩ := List.pairwise_append.mp hclock
    obtain ⟨mid, histories, hmid, hfirst, -⟩ := Limiter.run_accounted Limiter.empty_accounted (fun _ _ => Nat.zero_le _) hbefore
    obtain ⟨_, final, -, hwhole, hgrows⟩ := Limiter.run_accounted hfirst
      (fun call hcall => hmid call.1 (Nat.zero_le _) fun first hfirst => hcross first hfirst call hcall) hrest
    have hentry := counters_of_find hstate
    obtain ⟨hle, hcount, -⟩ := hfirst.count hentry
    refine ⟨hle, hcount, ?_⟩
    rw [Limiter.run, List.foldl_append]
    exact hfirst.window_le hwhole (hgrows address) hentry
  · intro address since
    exact Nat.le_pred_of_lt (hall.within_lt (by decide) address since)
  · intro now address hquiet hroom
    refine (allowConnectionAttempt_cases ..).fresh ?_ hroom
    intro state hstate
    -- a window starts with an attempt, and those of this address are all long past
    obtain ⟨-, -, hstart⟩ := hall.count (counters_of_find hstate)
    obtain ⟨call, hcall, hsame⟩ := List.mem_map.mp hstart
    obtain ⟨hmem, haddress⟩ := List.mem_filter.mp hcall
    have hover := hquiet call ((Limiter.mem_run_admitted hmem).resolve_left List.not_mem_nil) (by simpa using haddress)
    rw [hsame] at hover
    exact decide_eq_true (Nat.le_sub_of_add_le' hover)

/-- The window is opened early, filled at its end, and the next one filled as soon as it is over. -/
def burstCalls : List (Nat × Bytes) :=
  (0, [49]) :: List.replicate 7 (connectionAttemptWindow - 1, [49]) ++ List.replicate 8 (connectionAttemptWindow, [49])

theorem connection_limiter_bounds_burst :
    within 1 (1 + connectionAttemptWindow) (timesOf [49] (Limiter.empty.run burstCalls).admitted) = 15 ∧
    within 1 (1 + connectionAttemptWindow) (timesOf [49] (Limiter.empty.run burstCalls).admitted) ≤
      2 * maxConnectionAttemptsPerIp - 1 ∧
    (allowConnectionAttempt connectionAttemptWindow [50] (Limiter.empty.run burstCalls).table).1 = true := by
  obtain ⟨-, -, hinterval, hfresh⟩ := connection_limiter_bounds burstCalls (by decide)
  refine ⟨by decide, hinterval [49] 1, hfresh _ [50] (by decide) (by decide)⟩

/-! ## The server behind the limit -/

namespace InboundServer

open Interleave

inductive Turn (host : UInt32) (port : UInt16) (s : InboundServer) : InboundServer × Option PeerTask → Prop
  | closed : Turn host port s (s, none)
  | refused {table : ConnectionAttempts} :
    allowConnectionAttempt s.server.now (Ipv4.dotted host) s.connectionAttempts = (false, table) →
    Turn host port s ({ s with connectionAttempts := table }, none)
  | greeted {table : ConnectionAttempts} :
    allowConnectionAttempt s.server.now (Ipv4.dotted host) s.connectionAttempts = (true, table) →
    s.server.begin (.accept host port) = (s.server, some (.connecting (Ipv4.dotted host) port)) →
    Turn host port s ({ s with connectionAttempts := table }, some (.connecting (Ipv4.dotted host) port))

theorem acceptConnection_turn (host : UInt32) (port : UInt16) (s : InboundServer) :
    Turn host port s (s.acceptConnection host port) := by
  unfold acceptConnection
  by_cases hrunning : s.server.running = true
  · by_cases hfull : s.server.manager.peers.length ≥ maxPeers
    · rw [if_neg (by simp [hrunning]), if_pos hfull]
      exact .closed
    · rw [if_neg (by simp [hrunning]), if_neg hfull]
      dsimp only
      rcases hallow : allowConnectionAttempt s.server.now (Ipv4.dotted host) s.connectionAttempts with ⟨_ | _, table⟩
      · exact .refused hallow
      · refine .greeted hallow ?_
        simp only [P2PServer.begin]
        rw [if_neg (by simp [hrunning, hfull])]
  · rw [if_pos (by simp [hrunning])]
    exact .closed

/-! ### It is the server without some connections -/

def forget (c : Config InboundServer PeerTask) : Config P2PServer PeerTask := ⟨c.shared.server, c.threads⟩

theorem Turn.refines {host : UInt32} {port : UInt16} {s : InboundServer} {r : InboundServer × Option PeerTask}
    (h : Turn host port s r) (threads : List PeerTask) :
    forget ⟨r.1, threads ++ r.2.toList⟩ = ⟨s.server, threads⟩ ∨
      forget ⟨r.1, threads ++ r.2.toList⟩ = peerSystem.step ⟨s.server, threads⟩ (.spawn (.accept host port)) := by
  cases h with
  | closed => exact Or.inl (by simp [forget])
  | refused => exact Or.inl (by simp [forget])
  | greeted _ hbegin =>
    right
    simp only [forget, System.step, peerSystem]
    rw [hbegin]

theorem step_refines (c : Config InboundServer PeerTask) (event : Event PeerCall Bool) :
    forget (inboundSystem.step c event) = forget c ∨ forget (inboundSystem.step c event) = peerSystem.step (forget c) event := by
  cases event with
  | spawn call =>
    cases call with
    | accept host port => exact (acceptConnection_turn host port c.shared).refines c.threads
    | _ => exact Or.inr rfl
  | advance i choice =>
    right
    simp only [System.step, forget]
    cases c.threads[i]? with
    | none => rfl
    | some task => rfl

/-- What holds in every run of the server holds behind the limit. -/
theorem run_refines (events : List (Event PeerCall Bool)) (c : Config InboundServer PeerTask) :
    ∃ kept, kept.Sublist events ∧ forget (inboundSystem.run events c) = peerSystem.run kept (forget c) := by
  induction events generalizing c with
  | nil => exact ⟨[], .refl _, rfl⟩
  | cons event rest ih =>
    obtain ⟨kept, hkept, hrun⟩ := ih (inboundSystem.step c event)
    rcases step_refines c event with hsame | hstep
    · rw [hsame] at hrun
      exact ⟨kept, hkept.cons _, hrun⟩
    · rw [hstep] at hrun
      exact ⟨event :: kept, hkept.cons_cons _, hrun⟩

/-! ### Handshakes -/

/-- The time and the address of a connection that gets to the handshake. -/
def handshake (s : InboundServer) : Event PeerCall Bool → Option (Nat × Bytes)
  | .spawn (.accept host port) => (s.acceptConnection host port).2.map fun _ => (s.server.now, Ipv4.dotted host)
  | _ => none

def handshakes : List (Event PeerCall Bool) → Config InboundServer PeerTask → List (Nat × Bytes) → List (Nat × Bytes)
  | [], _, log => log
  | event :: rest, c, log => handshakes rest (inboundSystem.step c event) ((c.shared.handshake event).toList ++ log)

def Counts (s : InboundServer) (log : List (Nat × Bytes)) : Prop :=
  ∃ histories, Windows.Accounts maxConnectionAttemptsPerIp connectionAttemptWindow s.server.now (counters s.connectionAttempts)
    log histories

variable {s : InboundServer} {log : List (Nat × Bytes)}

theorem Counts.later (h : s.Counts log) {server : P2PServer} (hnow : s.server.now ≤ server.now) :
    Counts { s with server := server } log := by
  obtain ⟨histories, ha⟩ := h
  exact ⟨histories, ha.mono hnow⟩

theorem Counts.attempt (h : s.Counts log) {address : Bytes} {allowed : Bool} {table : ConnectionAttempts}
    (hallow : allowConnectionAttempt s.server.now address s.connectionAttempts = (allowed, table)) :
    Counts { s with connectionAttempts := table } (if allowed then (s.server.now, address) :: log else log) := by
  obtain ⟨histories, ha⟩ := h
  have hstep := (allowConnectionAttempt_cases s.server.now address s.connectionAttempts).step
  rw [hallow] at hstep
  obtain ⟨grown, hgrown, -⟩ := hstep.accounts ha (Nat.le_refl _) (by decide) (by decide)
  exact ⟨grown, hgrown⟩

theorem Turn.counts {host : UInt32} {port : UInt16} {r : InboundServer × Option PeerTask} (ht : Turn host port s r)
    (h : s.Counts log) : r.1.Counts ((r.2.map fun _ => (s.server.now, Ipv4.dotted host)).toList ++ log) := by
  cases ht with
  | closed => exact h
  | refused hallow => exact h.attempt hallow
  | greeted hallow => exact h.attempt hallow

theorem step_counts {c : Config InboundServer PeerTask} (h : c.shared.Counts log) (event : Event PeerCall Bool) :
    (inboundSystem.step c event).shared.Counts ((c.shared.handshake event).toList ++ log) := by
  cases event with
  | spawn call =>
    have hlater := h.later (P2PServer.begin_effect call c.shared.server).now_le
    cases call with
    | accept host port => exact (acceptConnection_turn host port c.shared).counts h
    | _ => exact hlater
  | advance i choice =>
    rw [System.step]
    cases c.threads[i]? with
    | none => exact h
    | some task => exact h.later (P2PServer.advance_effect choice c.shared.server task).now_le

theorem handshakes_counts (events : List (Event PeerCall Bool)) {c : Config InboundServer PeerTask} (h : c.shared.Counts log) :
    (inboundSystem.run events c).shared.Counts (handshakes events c log) := by
  induction events generalizing c log with
  | nil => exact h
  | cons event rest ih => exact ih (step_counts h event)

/-- The limit on the attempts is one on the handshakes of a host, whatever else the server does. -/
theorem handshakes_bounded (events : List (Event PeerCall Bool)) {c : Config InboundServer PeerTask}
    (hnew : c.shared.connectionAttempts = .empty) (address : Bytes) (since : Nat) :
    within since (since + connectionAttemptWindow) (timesOf address (handshakes events c [])) ≤
      2 * maxConnectionAttemptsPerIp - 1 := by
  have hstart : c.shared.Counts [] := by
    rw [Counts, hnew]
    exact ⟨_, Windows.Accounts.empty⟩
  obtain ⟨histories, ha⟩ := handshakes_counts events hstart
  exact Nat.le_pred_of_lt (ha.within_lt (by decide) address since)

end InboundServer

end Caesar
