import Caesar.AuthSound
import Caesar.Lib.Lockout

/-!
# How many PINs can be tried

`/api/auth/unlock` counts its failures, and refuses after five until 300 seconds
have passed. The counter starts again with every request that clears it, and two
endpoints try a PIN without looking at it.
-/

namespace Caesar

open Codec Text

namespace AuthState

variable {V : VaultLib} {s base after : AuthState V} {r : AuthRequest} {draw : Draw V}

/-! ## What a request does to counter and trace -/

def Idle (notes : List Note) : Prop := ∀ n ∈ notes, n ≠ .guess true false ∧ n ≠ .cleared

def stamped (r : AuthRequest) (now : Nat) (notes : List Note) (trace : List TraceEntry) : List TraceEntry :=
  notes.map (⟨r.clientIp, now, ·⟩) ++ trace

/-- The counter and the trace after a request: untouched, let through, a failure recorded, or cleared. -/
inductive Tally (r : AuthRequest) (draw : Draw V) (s after : AuthState V) : Prop
  | kept {notes} : Idle notes → after.failures = s.failures → after.trace = stamped r draw.now notes s.trace →
      Tally r draw s after
  | passed {notes base} : s.checkRateLimit r.clientIp draw.now = (true, base) → Idle notes → after.failures = base.failures →
    after.trace = stamped r draw.now notes s.trace → Tally r draw s after
  | recorded {notes base} : s.checkRateLimit r.clientIp draw.now = (true, base) → notes = [] ∨ notes = [.guess true false] →
    after.failures = (base.recordAuthFailure r.clientIp draw.now).failures →
    after.trace = stamped r draw.now notes s.trace → Tally r draw s after
  | cleared {notes base} : s.checkRateLimit r.clientIp draw.now = (true, base) → Idle notes →
    after.failures = base.failures.erase r.clientIp →
    after.trace = stamped r draw.now (.cleared :: notes) s.trace → Tally r draw s after

theorem idle_nil : Idle [] := nofun

theorem Tally.refl (s : AuthState V) : Tally r draw s s := .kept idle_nil rfl rfl

theorem persist_tally {ops : List FileOp} {rest : AuthState V → AuthReply × AuthState V}
    (hrest : ∀ s, (rest s).2.failures = s.failures ∧ (rest s).2.trace = s.trace) :
    (persist none draw ops base rest).2.failures = base.failures ∧ (persist none draw ops base rest).2.trace = base.trace := by
  have hscript : AuthFault.script none = none := rfl
  have hrun := Script.perform_none_ne_stopped files ops base.disk
  rw [persist, hscript]
  rcases hresult : Script.perform files none ops base.disk with ⟨_ | _ | _, disk⟩
  · exact hrest _
  · exact ⟨rfl, rfl⟩
  · rw [hresult] at hrun
    exact absurd rfl hrun

theorem openSession_tally (ops : List FileOp) (mnemonic address : Option Bytes) (base : AuthState V) :
    (openSession none draw ops mnemonic address base).2.failures = base.failures ∧
      (openSession none draw ops mnemonic address base).2.trace = base.trace :=
  persist_tally fun _ => ⟨rfl, rfl⟩

theorem replaceKey_tally {key : V.Key} {pin : Bytes} {mnemonic : Option Bytes} :
    (replaceKey none draw key pin mnemonic base).2.failures = base.failures ∧
      (replaceKey none draw key pin mnemonic base).2.trace = base.trace :=
  openSession_tally _ _ _ _

theorem tally_guarded {rest : AuthState V → AuthReply × AuthState V} (h : Tally r draw s (rest s).2) :
    Tally r draw s (guarded r s rest).2 := by
  rw [guarded]
  split
  · exact .refl s
  · exact h

theorem checkRateLimit_trace (ip : Bytes) (now : Nat) : (s.checkRateLimit ip now).2.trace = s.trace := by
  unfold checkRateLimit
  split
  · rfl
  · split
    · split
      · rfl
      · rfl
    · rfl

theorem tally_limited {busy : String} {rest : AuthState V → AuthReply × AuthState V}
    (h : ∀ base, s.checkRateLimit r.clientIp draw.now = (true, base) → base.trace = s.trace → Tally r draw s (rest base).2) :
    Tally r draw s (limited r draw busy s rest).2 := by
  refine tally_guarded ?_
  have htrace := checkRateLimit_trace (s := s) r.clientIp draw.now
  have hrefused : (s.checkRateLimit r.clientIp draw.now).1 = false → (s.checkRateLimit r.clientIp draw.now).2 = s := by
    unfold checkRateLimit
    split
    · exact fun _ => rfl
    · split
      · split
        · exact fun _ => rfl
        · exact fun h => absurd h.symm Bool.false_ne_true
      · exact fun _ => rfl
  rcases hcheck : s.checkRateLimit r.clientIp draw.now with ⟨_ | _, base⟩
  · rw [hcheck] at hrefused
    have hbase : base = s := hrefused rfl
    rw [hbase]
    exact .refl s
  · rw [hcheck] at htrace
    exact h base hcheck htrace

theorem setup_tally : Tally r draw s (setup none r draw s).2 := by
  refine tally_guarded ?_
  split
  · exact .refl s
  · exact .refl s
  · split
    · exact .refl s
    · split
      · exact .refl s
      · dsimp only
        split
        · exact .refl s
        · exact .kept idle_nil replaceKey_tally.1 replaceKey_tally.2
        · exact .kept idle_nil replaceKey_tally.1 replaceKey_tally.2
        · exact .kept idle_nil (openSession_tally _ _ _ s).1 (openSession_tally _ _ _ s).2

theorem unlock_tally : Tally r draw s (unlock none r draw s).2 := by
  refine tally_limited fun base hcheck htrace => ?_
  have hpassed : Tally r draw s base := .passed hcheck idle_nil rfl htrace
  split
  · exact hpassed
  · rename_i pin _
    split
    · exact hpassed
    · exact hpassed
    · rcases hv : verifyPin none r draw true pin base with ⟨_ | _, next⟩
      · have hnext : base.noted r draw.now (.guess true _) = next := congrArg Prod.snd hv
        have hwrong : (decide ((none : Option AuthFault) ≠ some (.read .verifyPin)) && V.verifyPin base.disk.pin pin) = false :=
          congrArg Prod.fst hv
        rw [hwrong] at hnext
        rw [← hnext]
        exact .recorded hcheck (Or.inr rfl) rfl (congrArg (_ :: ·) htrace)
      · have hnext : base.noted r draw.now (.guess true _) = next := congrArg Prod.snd hv
        have hright : (decide ((none : Option AuthFault) ≠ some (.read .verifyPin)) && V.verifyPin base.disk.pin pin) = true :=
          congrArg Prod.fst hv
        rw [hright] at hnext
        have hidle : Idle [.guess true true] := by simp [Idle]
        have htraced : next.trace = stamped r draw.now [.guess true true] s.trace := hnext ▸ congrArg (_ :: ·) htrace
        have hfailures : next.failures = base.failures := hnext ▸ rfl
        dsimp only
        split
        · exact .passed hcheck hidle hfailures htraced
        · rename_i key _
          split
          · exact .passed hcheck hidle hfailures htraced
          · have hsession : (openSession none draw [] none none { next with loaded := some key }).2.failures = next.failures ∧
                (openSession none draw [] none none { next with loaded := some key }).2.trace = next.trace :=
              openSession_tally [] none none _
            split
            · rename_i heq
              rw [heq] at hsession
              refine .cleared hcheck hidle ?_ (congrArg (_ :: ·) (hsession.2.trans htraced))
              exact congrArg (OrdMap.erase · r.clientIp) (hsession.1.trans hfailures)
            · exact .passed hcheck hidle (hsession.1.trans hfailures) (hsession.2.trans htraced)

theorem requestOtp_tally : Tally r draw s (requestOtp r draw s).2 := by
  refine tally_limited fun base hcheck htrace => ?_
  split
  · exact .recorded hcheck (Or.inl rfl) rfl htrace
  · split
    · exact .recorded hcheck (Or.inl rfl) rfl htrace
    · exact .cleared hcheck idle_nil rfl (congrArg (_ :: ·) htrace)

theorem verifyOtp_tally : Tally r draw s (verifyOtp r draw s).2 := by
  refine tally_limited fun base hcheck htrace => ?_
  split
  · exact .passed hcheck idle_nil rfl htrace
  · split
    · exact .passed hcheck idle_nil rfl htrace
    · dsimp only
      split
      · exact .recorded hcheck (Or.inl rfl) rfl htrace
      · exact .cleared hcheck idle_nil rfl (congrArg (_ :: ·) htrace)

theorem recover_tally : Tally r draw s (recover none r draw s).2 := by
  refine tally_limited fun base hcheck htrace => ?_
  have hpassed : Tally r draw s base := .passed hcheck idle_nil rfl htrace
  split
  · exact hpassed
  · split
    · exact hpassed
    · split
      · exact hpassed
      · split
        · exact hpassed
        · exact .passed hcheck idle_nil replaceKey_tally.1 (replaceKey_tally.2.trans htrace)

theorem tally_bypass {pin : Bytes} {refused accepted : AuthState V → AuthReply × AuthState V}
    (href : ∀ s, (refused s).2.failures = s.failures ∧ (refused s).2.trace = s.trace)
    (hacc : ∀ s, (accepted s).2.failures = s.failures ∧ (accepted s).2.trace = s.trace) :
    Tally r draw s (match verifyPin none r draw false pin s with
      | (false, s) => refused s
      | (true, s) => accepted s).2 := by
  have hidle : ∀ correct, Idle [.guess false correct] := by simp [Idle]
  rcases hv : verifyPin none r draw false pin s with ⟨_ | _, next⟩
  · have hnext : s.noted r draw.now (.guess false _) = next := congrArg Prod.snd hv
    subst hnext
    exact .kept (hidle _) (href _).1 (href _).2
  · have hnext : s.noted r draw.now (.guess false _) = next := congrArg Prod.snd hv
    subst hnext
    exact .kept (hidle _) (hacc _).1 (hacc _).2

theorem encryptWallet_tally : Tally r draw s (encryptWallet none r draw s).2 := by
  refine tally_guarded ?_
  split
  · exact .refl s
  · split
    · exact .refl s
    · split
      · exact .refl s
      · exact .refl s
      · refine tally_bypass (fun _ => ⟨rfl, rfl⟩) fun next => ?_
        split
        · exact ⟨rfl, rfl⟩
        · split
          · exact ⟨rfl, rfl⟩
          · exact persist_tally fun _ => ⟨rfl, rfl⟩

theorem changePin_tally : Tally r draw s (changePin none r draw s).2 := by
  refine tally_guarded ?_
  split
  · exact .refl s
  · split
    · exact .refl s
    · split
      · exact .refl s
      · split
        · exact .refl s
        · refine tally_bypass (fun _ => ⟨rfl, rfl⟩) fun next => ?_
          split
          · exact ⟨rfl, rfl⟩
          · exact persist_tally fun _ => ⟨rfl, rfl⟩

theorem handle_tally (r : AuthRequest) (draw : Draw V) (s : AuthState V) : Tally r draw s (s.handle none r draw).2 := by
  rw [handle]
  cases r.endpoint with
  | autoUnlock =>
    show Tally r draw s (autoUnlock r s).2
    rw [autoUnlock]
    split
    · exact .kept idle_nil rfl rfl
    · exact .refl s
  | status => exact .refl s
  | setup => exact setup_tally
  | unlock => exact unlock_tally
  | requestOtp => exact requestOtp_tally
  | verifyOtp => exact verifyOtp_tally
  | recover => exact recover_tally
  | encryptWallet => exact encryptWallet_tally
  | changePin => exact changePin_tally

/-! ## Counting -/

def lockSpan : Nat := 300000000000

/-- How many notes of a kind an address has from `since` until 300 seconds later. -/
def countNotes (kind : Note → Bool) (ip : Bytes) (since : Nat) (s : AuthState V) : Nat :=
  s.trace.countP fun e => e.ip = ip && since ≤ e.time && e.time < since + lockSpan && kind e.note

def wrongPins (ip : Bytes) (since : Nat) (s : AuthState V) : Nat :=
  countNotes (fun n => n = .guess true false || n = .guess false false) ip since s

def bypassed (ip : Bytes) (since : Nat) (s : AuthState V) : Nat := countNotes (· = .guess false false) ip since s

def clears (ip : Bytes) (since : Nat) (s : AuthState V) : Nat := countNotes (· = .cleared) ip since s

def counted (ip : Bytes) (since : Nat) (s : AuthState V) : Nat := countNotes (· = .guess true false) ip since s

theorem wrongPins_eq (ip : Bytes) (since : Nat) (s : AuthState V) :
    wrongPins ip since s = counted ip since s + bypassed ip since s := by
  rw [wrongPins, counted, bypassed, countNotes, countNotes, countNotes]
  induction s.trace with
  | nil => rfl
  | cons e trace ih =>
    simp only [List.countP_cons, ih]
    rcases e with ⟨ip', time, _ | _⟩
    · rename_i limited correct
      cases limited <;> cases correct <;> simp <;> omega
    · simp

theorem countNotes_stamped (kind : Note → Bool) (ip : Bytes) (since : Nat) {now : Nat} {notes : List Note}
    (h : after.trace = stamped r now notes s.trace) : countNotes kind ip since after =
      (if r.clientIp = ip ∧ since ≤ now ∧ now < since + lockSpan then notes.countP kind else 0) + countNotes kind ip since s := by
  rw [countNotes, countNotes, h, stamped, List.countP_append, List.countP_map]
  congr 1
  by_cases hin : r.clientIp = ip ∧ since ≤ now ∧ now < since + lockSpan
  · rw [if_pos hin]
    refine List.countP_congr fun n _ => ?_
    simp [hin]
  · rw [if_neg hin]
    refine List.countP_eq_zero.mpr fun n _ => ?_
    simp only [Function.comp_apply, Bool.and_eq_true, decide_eq_true_eq, not_and, Bool.not_eq_true]
    intro h1
    exact absurd ⟨h1.1.1, h1.1.2, h1.2⟩ hin

/-! ## The counter as a lockout -/

theorem checkRateLimit_lockout {ip : Bytes} {now : Nat} (h : s.checkRateLimit ip now = (true, base)) :
    Lockout.check 5 lockSpan now (s.failures.find? ip) = some (base.failures.find? ip) ∧
      ∀ other, other ≠ ip → base.failures.find? other = s.failures.find? other := by
  unfold checkRateLimit at h
  cases hentry : s.failures.find? ip with
  | none =>
    rw [hentry] at h
    cases h
    exact ⟨congrArg some hentry.symm, fun _ _ => rfl⟩
  | some entry =>
    obtain ⟨count, last⟩ := entry
    rw [hentry] at h
    dsimp only at h
    rw [Lockout.check]
    split_ifs at h with hfull hrecent
    · cases h
    · cases h
      rw [if_pos hfull, if_neg (by rw [lockSpan]; omega), OrdMap.find?_erase, if_pos rfl]
      exact ⟨rfl, fun other hne => by rw [OrdMap.find?_erase, if_neg (Ne.symm hne)]⟩
    · cases h
      rw [if_neg hfull, hentry]
      exact ⟨rfl, fun _ _ => rfl⟩

theorem countP_idle {notes : List Note} (h : Idle notes) :
    notes.countP (· = .guess true false) = 0 ∧ notes.countP (· = .cleared) = 0 :=
  ⟨List.countP_eq_zero.mpr fun n hn => by simpa using (h n hn).1, List.countP_eq_zero.mpr fun n hn => by simpa using (h n hn).2⟩

theorem Tally.balance (h : Tally r draw s after) : ∃ notes, after.trace = stamped r draw.now notes s.trace ∧
    (∀ other, other ≠ r.clientIp → after.failures.find? other = s.failures.find? other) ∧
    ∀ since, since ≤ draw.now → draw.now < since + lockSpan →
      Lockout.pending 5 since (s.failures.find? r.clientIp) + notes.countP (· = .guess true false) ≤
        5 * notes.countP (· = .cleared) + Lockout.pending 5 since (after.failures.find? r.clientIp) := by
  cases h with
  | @kept notes hidle hfailures htrace =>
    refine ⟨notes, htrace, fun _ _ => by rw [hfailures], fun since _ _ => ?_⟩
    rw [(countP_idle hidle).1, (countP_idle hidle).2, hfailures]
    omega
  | @passed notes base hcheck hidle hfailures htrace =>
    obtain ⟨hlockout, hothers⟩ := checkRateLimit_lockout hcheck
    refine ⟨notes, htrace, fun other hne => by rw [hfailures, hothers other hne], fun since _ hnow => ?_⟩
    have hpending := Lockout.pending_check hlockout hnow
    rw [(countP_idle hidle).1, (countP_idle hidle).2, hfailures]
    omega
  | @recorded notes base hcheck hnotes hfailures htrace =>
    obtain ⟨hlockout, hothers⟩ := checkRateLimit_lockout hcheck
    refine ⟨notes, htrace, fun other hne => ?_, fun since hsince hnow => ?_⟩
    · rw [hfailures, recordAuthFailure, OrdMap.find?_insert, if_neg (Ne.symm hne), hothers other hne]
    · have hpending := Lockout.pending_check hlockout hnow
      have hrecord := Lockout.pending_record hlockout (by decide) hsince
      have hentry : after.failures.find? r.clientIp = Lockout.record draw.now (base.failures.find? r.clientIp) := by
        rw [hfailures, recordAuthFailure, OrdMap.find?_insert, if_pos rfl]
        rfl
      have hone : notes.countP (· = .guess true false) ≤ 1 := by
        rcases hnotes with rfl | rfl
        · exact Nat.zero_le 1
        · exact Nat.le_refl 1
      rw [hentry]
      omega
  | @cleared notes base hcheck hidle hfailures htrace =>
    obtain ⟨-, hothers⟩ := checkRateLimit_lockout hcheck
    refine ⟨_, htrace, fun other hne => ?_, fun since _ _ => ?_⟩
    · rw [hfailures, OrdMap.find?_erase, if_neg (Ne.symm hne), hothers other hne]
    · have hle := Lockout.pending_le 5 since (s.failures.find? r.clientIp)
      rw [List.countP_cons_of_neg (by decide), List.countP_cons_of_pos (by decide), (countP_idle hidle).1, (countP_idle hidle).2]
      omega

/-! ## Runs -/

/-- What holds between two requests: the guesses that were counted since a time are covered by the clearings and by what
stands in the counter, as long as the span lasts. -/
structure Paced (ip : Bytes) (since now : Nat) (s : AuthState V) : Prop where
  past : ∀ e ∈ s.trace, e.time ≤ now
  bounded : counted ip since s ≤ 5 * (clears ip since s + 1)
  covered : now < since + lockSpan →
    counted ip since s ≤ 5 * clears ip since s + Lockout.pending 5 since (s.failures.find? ip)

theorem counted_eq_zero {ip : Bytes} {since now : Nat} (h : ∀ e ∈ s.trace, e.time ≤ now) (hnow : now < since) :
    counted ip since s = 0 := by
  refine List.countP_eq_zero.mpr fun e he => ?_
  have hlate : ¬ since ≤ e.time := Nat.not_le.mpr (lt_of_le_of_lt (h e he) hnow)
  simp [hlate]

theorem Paced.tally {ip : Bytes} {since now : Nat} (h : Paced ip since now s) (hnow : now ≤ draw.now)
    (ht : Tally r draw s after) : Paced ip since draw.now after := by
  obtain ⟨notes, htrace, hothers, hbalance⟩ := ht.balance
  have hpast : ∀ e ∈ after.trace, e.time ≤ draw.now := by
    intro e he
    rw [htrace, stamped, List.mem_append, List.mem_map] at he
    rcases he with ⟨n, -, rfl⟩ | he
    · exact le_rfl
    · exact (h.past e he).trans hnow
  have hcounted := countNotes_stamped (· = .guess true false) ip since htrace
  have hclears := countNotes_stamped (· = .cleared) ip since htrace
  change counted ip since after = _ + counted ip since s at hcounted
  change clears ip since after = _ + clears ip since s at hclears
  by_cases hin : r.clientIp = ip ∧ since ≤ draw.now ∧ draw.now < since + lockSpan
  · obtain ⟨rfl, hsince, hspan⟩ := hin
    rw [if_pos ⟨rfl, hsince, hspan⟩] at hcounted hclears
    have hcovered := h.covered (lt_of_le_of_lt hnow hspan)
    have hbal := hbalance since hsince hspan
    have hle := Lockout.pending_le 5 since (after.failures.find? r.clientIp)
    exact ⟨hpast, by omega, fun _ => by omega⟩
  · rw [if_neg hin, Nat.zero_add] at hcounted hclears
    refine ⟨hpast, by rw [hcounted, hclears]; exact h.bounded, fun hspan => ?_⟩
    rw [hcounted, hclears]
    by_cases hip : r.clientIp = ip
    · -- the request comes before the span, and nothing is counted yet
      have hearly : draw.now < since := by
        by_contra hlate
        exact hin ⟨hip, Nat.le_of_not_lt hlate, hspan⟩
      rw [counted_eq_zero h.past (lt_of_le_of_lt hnow hearly)]
      exact Nat.zero_le _
    · rw [hothers ip (Ne.symm hip)]
      exact h.covered (lt_of_le_of_lt hnow hspan)

theorem run_paced {ip : Bytes} {since : Nat} : ∀ (events : List (AuthEvent V)) {now : Nat} {s : AuthState V},
    Paced ip since now s → (∀ e ∈ events, e.fault = none) → (∀ e ∈ events, now ≤ e.draw.now) →
    events.Pairwise (fun a b => a.draw.now ≤ b.draw.now) → ∃ now, Paced ip since now (s.run events)
  | [], now, _, h, _, _, _ => ⟨now, h⟩
  | event :: rest, now, s, h, hfaults, hnow, hclock => by
    obtain ⟨hfirst, hrest⟩ := List.pairwise_cons.mp hclock
    have hstep : Paced ip since event.draw.now (s.step event) := by
      rw [step, hfaults event List.mem_cons_self]
      exact h.tally (hnow event List.mem_cons_self) (handle_tally event.request event.draw s)
    exact run_paced rest hstep (fun e he => hfaults e (List.mem_cons_of_mem _ he)) hfirst hrest

/-! ## Requests that get around the counter -/

/-- Requests that clear the counter, and wrong PINs that are not counted, by what is answered. -/
def slips : Endpoint → AuthReply → Bool
  | .requestOtp, .sent => true
  | .verifyOtp, .verified => true
  | .unlock, .session _ _ _ => true
  | .encryptWallet, .failed status _ => status = 401
  | .changePin, .failed status _ => status = 401
  | _, _ => false

def Shown (r : AuthRequest) (draw : Draw V) (s : AuthState V) (ended : AuthReply × AuthState V) : Prop :=
  ∃ notes, ended.2.trace = stamped r draw.now notes s.trace ∧
    (.cleared ∈ notes ∨ .guess false false ∈ notes → slips r.endpoint ended.1 = true)

theorem shown_same {ended : AuthReply × AuthState V} (h : ended.2.trace = s.trace) : Shown r draw s ended :=
  ⟨[], h, by simp⟩

theorem shown_guarded {rest : AuthState V → AuthReply × AuthState V} (h : Shown r draw s (rest s)) :
    Shown r draw s (guarded r s rest) := by
  rw [guarded]
  split
  · exact shown_same rfl
  · exact h

theorem shown_limited {busy : String} {rest : AuthState V → AuthReply × AuthState V}
    (h : ∀ base : AuthState V, base.trace = s.trace → Shown r draw s (rest base)) :
    Shown r draw s (limited r draw busy s rest) := by
  refine shown_guarded ?_
  have htrace := checkRateLimit_trace (s := s) r.clientIp draw.now
  rcases hcheck : s.checkRateLimit r.clientIp draw.now with ⟨_ | _, base⟩
  · rw [hcheck] at htrace
    exact shown_same htrace
  · rw [hcheck] at htrace
    exact h base htrace

theorem setup_shown : Shown r draw s (setup none r draw s) := by
  refine shown_guarded ?_
  split
  · exact shown_same rfl
  · exact shown_same rfl
  · split
    · exact shown_same rfl
    · split
      · exact shown_same rfl
      · dsimp only
        split
        · exact shown_same rfl
        · exact shown_same replaceKey_tally.2
        · exact shown_same replaceKey_tally.2
        · exact shown_same (openSession_tally _ _ _ s).2

theorem recover_shown : Shown r draw s (recover none r draw s) := by
  refine shown_limited fun base htrace => ?_
  split
  · exact shown_same htrace
  · split
    · exact shown_same htrace
    · split
      · exact shown_same htrace
      · split
        · exact shown_same htrace
        · exact shown_same (replaceKey_tally.2.trans htrace)

theorem verifyPin_noted {limited correct : Bool} {pin : Bytes} {next : AuthState V}
    (h : verifyPin none r draw limited pin base = (correct, next)) (htrace : base.trace = s.trace) :
    next.trace = stamped r draw.now [.guess limited correct] s.trace := by
  cases h
  exact congrArg (_ :: ·) htrace

theorem unlock_shown (hr : r.endpoint = .unlock) : Shown r draw s (unlock none r draw s) := by
  refine shown_limited fun base htrace => ?_
  split
  · exact shown_same htrace
  · rename_i pin _
    split
    · exact shown_same htrace
    · exact shown_same htrace
    · rcases hv : verifyPin none r draw true pin base with ⟨_ | _, next⟩
      · have hnext := verifyPin_noted hv htrace
        exact ⟨_, hnext, by simp⟩
      · have hnext := verifyPin_noted hv htrace
        dsimp only
        split
        · exact ⟨_, hnext, by simp⟩
        · rename_i key _
          split
          · exact ⟨_, hnext, by simp⟩
          · have hsession : (openSession none draw [] none none { next with loaded := some key }).2.trace = next.trace :=
              (openSession_tally [] none none _).2
            split
            · rename_i heq
              rw [heq] at hsession
              refine ⟨[.cleared, .guess true true], congrArg (_ :: ·) (hsession.trans hnext), fun _ => ?_⟩
              rw [hr]
              rfl
            · exact ⟨_, hsession.trans hnext, by simp⟩

theorem requestOtp_shown (hr : r.endpoint = .requestOtp) : Shown r draw s (requestOtp r draw s) := by
  refine shown_limited fun base htrace => ?_
  split
  · exact shown_same htrace
  · split
    · exact shown_same htrace
    · refine ⟨[.cleared], congrArg (_ :: ·) htrace, fun _ => ?_⟩
      rw [hr]
      rfl

theorem verifyOtp_shown (hr : r.endpoint = .verifyOtp) : Shown r draw s (verifyOtp r draw s) := by
  refine shown_limited fun base htrace => ?_
  split
  · exact shown_same htrace
  · split
    · exact shown_same htrace
    · dsimp only
      split
      · exact shown_same htrace
      · refine ⟨[.cleared], congrArg (_ :: ·) htrace, fun _ => ?_⟩
        rw [hr]
        rfl

theorem shown_bypass {pin : Bytes} {error : String} {accepted : AuthState V → AuthReply × AuthState V}
    (hr : r.endpoint = .encryptWallet ∨ r.endpoint = .changePin) (hacc : ∀ s, (accepted s).2.trace = s.trace) :
    Shown r draw s (match verifyPin none r draw false pin s with
      | (false, s) => (.failed 401 error, s)
      | (true, s) => accepted s) := by
  rcases hv : verifyPin none r draw false pin s with ⟨_ | _, next⟩
  · refine ⟨_, verifyPin_noted hv rfl, fun _ => ?_⟩
    rcases hr with hr | hr
    · rw [hr]
      trivial
    · rw [hr]
      trivial
  · exact ⟨_, (hacc next).trans (verifyPin_noted hv rfl), by simp⟩

theorem encryptWallet_shown (hr : r.endpoint = .encryptWallet) : Shown r draw s (encryptWallet none r draw s) := by
  refine shown_guarded ?_
  split
  · exact shown_same rfl
  · split
    · exact shown_same rfl
    · split
      · exact shown_same rfl
      · exact shown_same rfl
      · refine shown_bypass (Or.inl hr) fun next => ?_
        split
        · rfl
        · split
          · rfl
          · exact (persist_tally fun _ => ⟨rfl, rfl⟩).2

theorem changePin_shown (hr : r.endpoint = .changePin) : Shown r draw s (changePin none r draw s) := by
  refine shown_guarded ?_
  split
  · exact shown_same rfl
  · split
    · exact shown_same rfl
    · split
      · exact shown_same rfl
      · split
        · exact shown_same rfl
        · refine shown_bypass (Or.inr hr) fun next => ?_
          split
          · rfl
          · exact (persist_tally fun _ => ⟨rfl, rfl⟩).2

theorem handle_shown (r : AuthRequest) (draw : Draw V) (s : AuthState V) : Shown r draw s (s.handle none r draw) := by
  rw [handle]
  cases hr : r.endpoint with
  | autoUnlock =>
    refine shown_same ?_
    show (autoUnlock r s).2.trace = s.trace
    rw [autoUnlock]
    split <;> rfl
  | status => exact shown_same rfl
  | setup => exact setup_shown
  | unlock => exact unlock_shown hr
  | requestOtp => exact requestOtp_shown hr
  | verifyOtp => exact verifyOtp_shown hr
  | recover => exact recover_shown
  | encryptWallet => exact encryptWallet_shown hr
  | changePin => exact changePin_shown hr

/-- No request of the address gets around the counter in the 300 seconds from `since` on. -/
def NoSlip (ip : Bytes) (since : Nat) : List (AuthEvent V) → AuthState V → Prop
  | [], _ => True
  | event :: events, s =>
    (event.request.clientIp = ip → since ≤ event.draw.now → event.draw.now < since + lockSpan →
      slips event.request.endpoint (s.handle none event.request event.draw).1 = false) ∧ NoSlip ip since events (s.step event)

theorem NoSlip.run {ip : Bytes} {since : Nat} {kind : Note → Bool}
    (hkind : ∀ n, kind n → n = .cleared ∨ n = .guess false false) :
    ∀ {events : List (AuthEvent V)} {s : AuthState V}, NoSlip ip since events s → (∀ e ∈ events, e.fault = none) →
      countNotes kind ip since (s.run events) = countNotes kind ip since s
  | [], _, _, _ => rfl
  | event :: events, s, h, hfaults => by
    rw [List.forall_mem_cons] at hfaults
    have hrest : countNotes kind ip since ((s.step event).run events) = countNotes kind ip since (s.step event) :=
      NoSlip.run hkind h.2 hfaults.2
    obtain ⟨notes, htrace, hslips⟩ := handle_shown event.request event.draw s
    have hstep : (s.step event).trace = stamped event.request event.draw.now notes s.trace := by
      rw [step, hfaults.1]
      exact htrace
    show countNotes kind ip since ((s.step event).run events) = _
    rw [hrest, countNotes_stamped kind ip since hstep, Nat.add_eq_right]
    split
    · rename_i hin
      refine List.countP_eq_zero.mpr fun n hn hk => ?_
      have hslip : .cleared ∈ notes ∨ .guess false false ∈ notes := by
        rcases hkind n hk with rfl | rfl
        · exact Or.inl hn
        · exact Or.inr hn
      exact absurd (hslips hslip) (by simp [h.1 hin.1 hin.2.1 hin.2.2])
    · rfl

/-- With a clock that does not go back: from any time until 300 seconds later, an address has at most five wrong PINs
evaluated for each time its counter was cleared and five more, and those that the counter was not asked for. So it has at
most five if it is answered no success by the endpoints that clear the counter and no wrong PIN by those that bypass it. -/
theorem wrong_pins_bounded (s : AuthState V) (events : List (AuthEvent V)) (htrace : s.trace = [])
    (hfaults : ∀ e ∈ events, e.fault = none) (hclock : events.Pairwise fun a b => a.draw.now ≤ b.draw.now) (ip : Bytes)
    (since : Nat) :
    wrongPins ip since (s.run events) ≤ 5 * (clears ip since (s.run events) + 1) + bypassed ip since (s.run events) ∧
      (NoSlip ip since events s → wrongPins ip since (s.run events) ≤ 5) := by
  have hnone : ∀ kind, countNotes kind ip since s = 0 := fun kind => by rw [countNotes, htrace]; rfl
  have hstart : Paced ip since 0 s := by
    refine ⟨by simp [htrace], ?_, fun _ => ?_⟩
    · rw [counted, hnone]
      exact Nat.zero_le _
    · rw [counted, hnone]
      exact Nat.zero_le _
  obtain ⟨now, hpaced⟩ := run_paced events hstart hfaults (fun _ _ => Nat.zero_le _) hclock
  have hbound : wrongPins ip since (s.run events) ≤
      5 * (clears ip since (s.run events) + 1) + bypassed ip since (s.run events) := by
    rw [wrongPins_eq]
    exact Nat.add_le_add_right hpaced.bounded _
  refine ⟨hbound, fun hslip => ?_⟩
  have hclears : clears ip since (s.run events) = 0 := by
    rw [clears, hslip.run (by simp) hfaults, hnone]
  have hbypassed : bypassed ip since (s.run events) = 0 := by
    rw [bypassed, hslip.run (by simp) hfaults, hnone]
  omega

theorem toyGuesses_noSlip : NoSlip (ascii "192.0.2.1") 0 (List.replicate 6 guessUnlock) toyOwner :=
  ⟨fun _ _ _ => by decide +kernel, fun _ _ _ => by decide +kernel, fun _ _ _ => by decide +kernel,
    fun _ _ _ => by decide +kernel, fun _ _ _ => by decide +kernel, fun _ _ _ => by decide +kernel, trivial⟩

theorem wrong_pins_bounded_toy : wrongPins (ascii "192.0.2.1") 0 (toyOwner.run (List.replicate 6 guessUnlock)) = 5 ∧
    wrongPins (ascii "192.0.2.1") 0 (toyOwner.run (List.replicate 6 guessUnlock)) ≤ 5 := by
  have hfive : wrongPins (ascii "192.0.2.1") 0 (toyOwner.run (List.replicate 6 guessUnlock)) = 5 := by decide +kernel
  have hfaults : ∀ e ∈ List.replicate 6 guessUnlock, e.fault = none := by simp [guessUnlock]
  have hclock : (List.replicate 6 guessUnlock).Pairwise fun a b => a.draw.now ≤ b.draw.now := by
    simp
  exact ⟨hfive, (wrong_pins_bounded toyOwner (List.replicate 6 guessUnlock) rfl hfaults hclock (ascii "192.0.2.1") 0).2
    toyGuesses_noSlip⟩

def guessChange : AuthEvent toyVaultLib :=
  ⟨toyRequest .changePin "\x7b\"old_pin\":\"9999\",\"new_pin\":\"5678\"\x7d", toyDraw 0, none⟩

def askOtp : AuthEvent toyVaultLib := ⟨toyRequest .requestOtp "\x7b\"email\": \"a@b.c\"\x7d", toyDraw 0, none⟩

/-- Six wrong PINs at one moment through `/api/auth/change-pin`, and eight through `/api/auth/unlock` with a code asked for in
between. -/
theorem wrong_pins_unbounded : wrongPins (ascii "192.0.2.1") 0 (toyOwner.run (List.replicate 6 guessChange)) = 6 ∧
    wrongPins (ascii "192.0.2.1") 0
      (toyOwner.run (List.replicate 4 guessUnlock ++ askOtp :: List.replicate 4 guessUnlock)) = 8 := by
  decide +kernel

end AuthState

end Caesar
