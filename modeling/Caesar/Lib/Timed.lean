import Mathlib.Data.List.TakeWhile

/-!
# A list that arrives over time

Each element has its time of arrival. `collect` waits for a number of elements until
a deadline: each turn of its loop waits for a time that depends on what is left, and
may be interrupted. It ends soon after the deadline whatever arrives, and it succeeds
when the elements arrive soon enough before it.
-/

namespace Timed

/-- What is still to come, and when the sender closes, if it does. -/
structure Source (α : Type) where
  arrivals : List (Nat × α)
  closed : Option Nat
  deriving DecidableEq

inductive Turn (ε : Type) where
  /-- `n + 1` elements at most -/
  | take (n : Nat)
  /-- the wait is interrupted -/
  | interrupted (after : Nat)
  /-- the wait was for nothing -/
  | nothing
  | failed (after : Nat) (e : ε)
  deriving DecidableEq

structure State (α : Type) where
  now : Nat
  source : Source α
  got : List α
  deriving DecidableEq

inductive Ended (ε : Type) where
  | timeout (now : Nat)
  | failed (now : Nat) (e : ε)
  deriving DecidableEq

inductive Collected (ε α : Type) where
  | all (s : State α) (turns : List (Turn ε))
  | ended (e : Ended ε)
  /-- the turns have run out before -/
  | waiting (s : State α)

section
variable {ε α : Type}

def Ended.now : Ended ε → Nat
  | .timeout now => now
  | .failed now _ => now

def Source.next (source : Source α) : Option Nat :=
  match source.arrivals with
  | [] => source.closed
  | first :: _ => some first.1

/-- When a wait that starts at `now` and lasts until `limit` finds something. -/
def Source.ready (source : Source α) (now limit : Nat) : Option Nat :=
  match source.next with
  | none => none
  | some time => if time ≤ limit then some (max now time) else none

def State.take (closed : ε) (n wanted : Nat) (s : State α) : Except (Ended ε) (State α) :=
  let there := (s.source.arrivals.takeWhile fun a => a.1 ≤ s.now).length
  if there = 0 then .error (.failed s.now closed)
  else
    let k := min (n + 1) (min wanted there)
    .ok ⟨s.now, ⟨s.source.arrivals.drop k, s.source.closed⟩, s.got ++ (s.source.arrivals.take k).map Prod.snd⟩

def step (closed : ε) (wait : Nat → Nat) (deadline size : Nat) (s : State α) (turn : Turn ε) :
    Except (Ended ε) (State α) :=
  if deadline ≤ s.now then .error (.timeout s.now)
  else
    let limit := s.now + wait (deadline - s.now)
    let ready := s.source.ready s.now limit
    match turn with
    | .interrupted after => .ok { s with now := min (s.now + after) (ready.getD limit) }
    | .failed after e => .error (.failed (min (s.now + after) (ready.getD limit)) e)
    | .nothing =>
      match ready with
      | none => .error (.timeout limit)
      | some time => .ok { s with now := time }
    | .take n =>
      match ready with
      | none => .error (.timeout limit)
      | some time => State.take closed n (size - s.got.length) { s with now := time }

def collect (closed : ε) (wait : Nat → Nat) (deadline size : Nat) : List (Turn ε) → State α → Collected ε α
  | [], s => if size ≤ s.got.length then .all s [] else .waiting s
  | turn :: turns, s =>
    if size ≤ s.got.length then .all s (turn :: turns)
    else match step closed wait deadline size s turn with
      | .error e => .ended e
      | .ok s => collect closed wait deadline size turns s

variable {closed : ε} {wait : Nat → Nat} {deadline size slack bound : Nat} {s s' : State α} {turn : Turn ε}

/-! ## One turn -/

structure Took (s : State α) (taken : List (Nat × α)) (s' : State α) : Prop where
  later : s.now ≤ s'.now
  arrivals : s.source.arrivals = taken ++ s'.source.arrivals
  closed : s'.source.closed = s.source.closed
  got : s'.got = s.got ++ taken.map Prod.snd
  there : ∀ a ∈ taken, a.1 ≤ s'.now

theorem Took.refl (s : State α) : Took s [] s := ⟨Nat.le_refl _, rfl, rfl, by simp, by simp⟩

theorem Took.trans {taken taken' : List (Nat × α)} {s'' : State α} (h : Took s taken s') (h' : Took s' taken' s'') :
    Took s (taken ++ taken') s'' := by
  refine ⟨Nat.le_trans h.later h'.later, ?_, h'.closed.trans h.closed, ?_, ?_⟩
  · rw [h.arrivals, h'.arrivals, List.append_assoc]
  · rw [h'.got, h.got, List.map_append, List.append_assoc]
  · intro a ha
    rcases List.mem_append.mp ha with ha | ha
    · exact Nat.le_trans (h.there a ha) h'.later
    · exact h'.there a ha

theorem ready_le {source : Source α} {now limit time : Nat} (h : source.ready now limit = some time) (hl : now ≤ limit) :
    now ≤ time ∧ time ≤ limit := by
  unfold Source.ready at h
  split at h
  · cases h
  · split at h
    · cases h
      omega
    · cases h

theorem getD_ready_le (source : Source α) {now limit : Nat} (hl : now ≤ limit) :
    now ≤ (source.ready now limit).getD limit ∧ (source.ready now limit).getD limit ≤ limit := by
  cases hr : source.ready now limit with
  | none => exact ⟨hl, Nat.le_refl _⟩
  | some time => exact ready_le hr hl

theorem take_ok {n wanted : Nat} (h : State.take closed n wanted s = .ok s') :
    ∃ taken, Took s taken s' ∧ taken.length ≤ wanted ∧ (0 < wanted → 0 < taken.length) ∧ s'.now = s.now := by
  unfold State.take at h
  dsimp only at h
  have hwhile : s.source.arrivals.takeWhile (fun a => a.1 ≤ s.now) <+: s.source.arrivals := List.takeWhile_prefix _
  have hlen := hwhile.length_le
  split at h
  · cases h
  · cases h
    refine ⟨_, ⟨Nat.le_refl _, (List.take_append_drop _ _).symm, rfl, rfl, ?_⟩, ?_, ?_, rfl⟩
    · intro a ha
      have hmem : a ∈ s.source.arrivals.takeWhile fun a => a.1 ≤ s.now := by
        rw [List.prefix_iff_eq_take.mp hwhile]
        exact List.take_subset_take_left _ (by omega) ha
      have := List.mem_takeWhile_imp hmem
      exact of_decide_eq_true this
    · rw [List.length_take]
      omega
    · rw [List.length_take]
      omega

theorem take_there (closed : ε) (n wanted : Nat) {a : Nat × α} {rest : List (Nat × α)}
    (ha : s.source.arrivals = a :: rest) (hnow : a.1 ≤ s.now) : ∃ s', State.take closed n wanted s = .ok s' := by
  unfold State.take
  dsimp only
  rw [if_neg]
  · exact ⟨_, rfl⟩
  · rw [ha, List.takeWhile_cons_of_pos (by simpa using hnow)]
    simp

theorem step_ok (h : step closed wait deadline size s turn = .ok s') : ∃ taken, Took s taken s' ∧
    taken.length ≤ size - s.got.length ∧ s.now < deadline ∧ s'.now ≤ s.now + wait (deadline - s.now) := by
  unfold step at h
  split at h
  · cases h
  rename_i hd
  have hl : s.now ≤ s.now + wait (deadline - s.now) := Nat.le_add_right ..
  have hready := getD_ready_le s.source hl
  cases turn with
  | interrupted after =>
    cases h
    refine ⟨[], ⟨?_, rfl, rfl, by simp, by simp⟩, Nat.zero_le _, Nat.lt_of_not_le hd, ?_⟩
    all_goals
      dsimp only
      omega
  | failed after e => cases h
  | nothing =>
    dsimp only at h
    split at h
    · cases h
    · rename_i time hr
      cases h
      obtain ⟨hle, hle'⟩ := ready_le hr hl
      exact ⟨[], ⟨hle, rfl, rfl, by simp, by simp⟩, Nat.zero_le _, Nat.lt_of_not_le hd, hle'⟩
  | take n =>
    dsimp only at h
    split at h
    · cases h
    · rename_i time hr
      obtain ⟨hle, hle'⟩ := ready_le hr hl
      obtain ⟨taken, htook, hlen, -, hnow⟩ := take_ok h
      refine ⟨taken, ⟨?_, htook.arrivals, htook.closed, htook.got, htook.there⟩, hlen, Nat.lt_of_not_le hd, ?_⟩
      all_goals
        dsimp only at hnow
        omega

theorem step_error {e : Ended ε} (h : step closed wait deadline size s turn = .error e) :
    deadline ≤ s.now ∧ e.now = s.now ∨ s.now < deadline ∧ e.now ≤ s.now + wait (deadline - s.now) := by
  unfold step at h
  split at h
  · rename_i hd
    cases h
    exact Or.inl ⟨hd, rfl⟩
  rename_i hd
  have hl : s.now ≤ s.now + wait (deadline - s.now) := Nat.le_add_right ..
  have hready := getD_ready_le s.source hl
  refine Or.inr ⟨Nat.lt_of_not_le hd, ?_⟩
  cases turn with
  | interrupted after => cases h
  | failed after e =>
    cases h
    show min _ _ ≤ _
    omega
  | nothing =>
    dsimp only at h
    split at h
    · cases h
      exact Nat.le_refl _
    · cases h
  | take n =>
    dsimp only at h
    split at h
    · cases h
      exact Nat.le_refl _
    · rename_i time hr
      unfold State.take at h
      dsimp only at h
      split at h
      · cases h
        exact (ready_le hr hl).2
      · cases h

/-! ## The loop -/

theorem collect_all : ∀ {turns rest : List (Turn ε)} {s s' : State α},
    collect closed wait deadline size turns s = .all s' rest → s.got.length ≤ size →
      ∃ taken, Took s taken s' ∧ s'.got.length = size := by
  intro turns
  induction turns with
  | nil =>
    intro rest s s' h hle
    unfold collect at h
    split at h
    · cases h
      exact ⟨[], Took.refl s, by omega⟩
    · cases h
  | cons turn turns ih =>
    intro rest s s' h hle
    unfold collect at h
    split at h
    · cases h
      exact ⟨[], Took.refl s, by omega⟩
    · split at h
      · cases h
      · rename_i next hstep
        obtain ⟨taken, htook, hlen, -⟩ := step_ok hstep
        have hgot : next.got.length ≤ size := by
          rw [htook.got, List.length_append, List.length_map]
          omega
        obtain ⟨more, hmore, hsize⟩ := ih h hgot
        exact ⟨taken ++ more, htook.trans hmore, hsize⟩

def Collected.now : Collected ε α → Nat
  | .all s _ => s.now
  | .ended e => e.now
  | .waiting s => s.now

/-- However little arrives, the clock of the loop does not go far beyond the deadline. -/
theorem collect_now (hwait : ∀ r, 0 < r → wait r ≤ r + slack) : ∀ (turns : List (Turn ε)) (s : State α),
    (collect closed wait deadline size turns s).now ≤ max s.now (deadline + slack) := by
  intro turns
  induction turns with
  | nil =>
    intro s
    unfold collect
    split
    · exact Nat.le_max_left _ _
    · exact Nat.le_max_left _ _
  | cons turn turns ih =>
    intro s
    unfold collect
    split
    · exact Nat.le_max_left _ _
    · split
      · rename_i e hstep
        show e.now ≤ _
        rcases step_error hstep with ⟨-, heq⟩ | ⟨hlt, hle⟩
        · omega
        · have := hwait (deadline - s.now) (by omega)
          omega
      · rename_i next hstep
        obtain ⟨-, -, -, hlt, hle⟩ := step_ok hstep
        have := hwait (deadline - s.now) (by omega)
        have := ih next
        omega

theorem collect_waiting (more : List (Turn ε)) : ∀ {turns : List (Turn ε)} {s s' : State α},
    collect closed wait deadline size turns s = .waiting s' → ¬ size ≤ s'.got.length ∧
      collect closed wait deadline size (turns ++ more) s = collect closed wait deadline size more s' := by
  intro turns
  induction turns with
  | nil =>
    intro s s' h
    unfold collect at h
    split at h
    · cases h
    · rename_i hs
      cases h
      exact ⟨hs, rfl⟩
  | cons turn turns ih =>
    intro s s' h
    rw [List.cons_append]
    unfold collect at h
    split at h
    · cases h
    · rename_i hs
      split at h
      · cases h
      · rename_i next hstep
        obtain ⟨hs', hmore⟩ := ih h
        refine ⟨hs', ?_⟩
        rw [← hmore, collect, if_neg hs, hstep]

theorem collect_spare (more : List (Turn ε)) : ∀ {turns rest : List (Turn ε)} {s s' : State α},
    collect closed wait deadline size turns s = .all s' rest →
      collect closed wait deadline size (turns ++ more) s = .all s' (rest ++ more) := by
  intro turns
  induction turns with
  | nil =>
    intro rest s s' h
    unfold collect at h
    split at h
    · rename_i hs
      cases h
      cases more with
      | nil => rw [List.append_nil, collect, if_pos hs]
      | cons turn more => rw [List.nil_append, collect, if_pos hs]
    · cases h
  | cons turn turns ih =>
    intro rest s s' h
    rw [List.cons_append]
    unfold collect at h
    split at h
    · rename_i hs
      cases h
      rw [collect, if_pos hs]
      rfl
    · rename_i hs
      split at h
      · cases h
      · rename_i next hstep
        rw [collect, if_neg hs, hstep]
        exact ih h

/-- The first turn after the deadline ends the loop. -/
theorem collect_late {turns : List (Turn ε)} (h : collect closed wait deadline size turns s = .waiting s')
    (hlate : deadline ≤ s'.now) (turn : Turn ε) :
    collect closed wait deadline size (turns ++ [turn]) s = .ended (.timeout s'.now) := by
  obtain ⟨hs, hmore⟩ := collect_waiting [turn] h
  rw [hmore, collect, if_neg hs, step, if_pos hlate]

/-! ## Elements that come in time -/

def Turn.isTake : Turn ε → Bool
  | .take _ => true
  | _ => false

def Turn.isFailed : Turn ε → Bool
  | .failed _ _ => true
  | _ => false

def Source.InTime (source : Source α) (wanted time : Nat) : Prop :=
  wanted ≤ source.arrivals.length ∧ ∀ a ∈ source.arrivals.take wanted, a.1 ≤ time

theorem Source.InTime.ready {source : Source α} {wanted time limit : Nat} (h : source.InTime wanted time)
    (hw : 0 < wanted) (now : Nat) (hlimit : time ≤ limit) : ∃ a rest, source.arrivals = a :: rest ∧ a.1 ≤ time ∧
      source.ready now limit = some (max now a.1) := by
  obtain ⟨hlen, hall⟩ := h
  cases harr : source.arrivals with
  | nil =>
    rw [harr, List.length_nil] at hlen
    omega
  | cons a rest =>
    have ha : a.1 ≤ time := hall a (by rw [harr, ← Nat.sub_add_cancel hw]; simp)
    refine ⟨a, rest, rfl, ha, ?_⟩
    simp only [Source.ready, Source.next, harr]
    rw [if_pos (Nat.le_trans ha hlimit)]

theorem step_inTime (closed : ε) (hwait : ∀ r ≤ bound, r ≤ wait r + slack) (hbound : deadline ≤ s.now + bound) {time : Nat}
    (hw : s.got.length < size) (hin : s.source.InTime (size - s.got.length) time) (hnow : s.now ≤ time)
    (htime : time + slack < deadline) (hturn : turn.isFailed = false) : ∃ next taken, step closed wait deadline size s turn = .ok next ∧ Took s taken next ∧
      next.now ≤ time ∧ taken.length ≤ size - s.got.length ∧ (turn.isTake = true → 0 < taken.length) := by
  have hlimit : time ≤ s.now + wait (deadline - s.now) := by
    have := hwait (deadline - s.now) (by omega)
    omega
  obtain ⟨a, rest, harr, ha, hready⟩ := hin.ready (by omega) s.now hlimit
  unfold step
  rw [if_neg (by omega)]
  dsimp only
  rw [hready]
  cases turn with
  | failed after e => cases hturn
  | interrupted after =>
    refine ⟨_, [], rfl, ⟨?_, rfl, rfl, by simp, by simp⟩, ?_, Nat.zero_le _, by simp [Turn.isTake]⟩
    all_goals
      simp only [Option.getD_some]
      omega
  | nothing =>
    refine ⟨_, [], rfl, ⟨?_, rfl, rfl, by simp, by simp⟩, ?_, Nat.zero_le _, by simp [Turn.isTake]⟩
    all_goals
      dsimp only
      omega
  | take n =>
    obtain ⟨next, hnext⟩ := take_there (s := { s with now := max s.now a.1 }) closed n (size - s.got.length) harr
      (Nat.le_max_right _ _)
    obtain ⟨taken, htook, hlen, hpos, heq⟩ := take_ok hnext
    dsimp only at heq
    refine ⟨next, taken, hnext, ⟨?_, htook.arrivals, htook.closed, htook.got, htook.there⟩, ?_, hlen,
      fun _ => hpos (by omega)⟩
    all_goals omega

/-- What comes in time is collected, if the calls give something often enough. -/
theorem collect_inTime (hwait : ∀ r ≤ bound, r ≤ wait r + slack) {time : Nat} (htime : time + slack < deadline) :
    ∀ {turns : List (Turn ε)} {s : State α}, deadline ≤ s.now + bound → s.got.length ≤ size → s.source.InTime (size - s.got.length) time →
      s.now ≤ time → (∀ turn ∈ turns, turn.isFailed = false) → size - s.got.length ≤ turns.countP Turn.isTake →
      ∃ s' rest, collect closed wait deadline size turns s = .all s' rest ∧ s'.now ≤ time ∧ rest <:+ turns ∧
        turns.countP Turn.isTake ≤ rest.countP Turn.isTake + (size - s.got.length) := by
  intro turns
  induction turns with
  | nil =>
    intro s _ hle hin hnow _ hcount
    rw [List.countP_nil] at hcount
    refine ⟨s, [], ?_, hnow, List.suffix_refl _, by simp⟩
    rw [collect, if_pos (by omega)]
  | cons turn turns ih =>
    intro s hbound hle hin hnow hturns hcount
    rw [List.forall_mem_cons] at hturns
    by_cases hs : size ≤ s.got.length
    · refine ⟨s, turn :: turns, ?_, hnow, List.suffix_refl _, by omega⟩
      rw [collect, if_pos hs]
    · obtain ⟨next, taken, hstep, htook, hnext, hlen, hpos⟩ := step_inTime closed hwait hbound
        (Nat.lt_of_not_le hs) hin hnow htime hturns.1
      have hgot : next.got.length = s.got.length + taken.length := by
        rw [htook.got, List.length_append, List.length_map]
      have hleft : next.source.InTime (size - next.got.length) time := by
        obtain ⟨hlen', hall⟩ := hin
        rw [htook.arrivals, List.length_append] at hlen'
        refine ⟨by omega, fun a ha => hall a ?_⟩
        rw [htook.arrivals, List.take_append]
        refine List.mem_append_right _ ?_
        rwa [hgot, ← Nat.sub_sub] at ha
      have hone : turns.countP Turn.isTake + (if turn.isTake = true then 1 else 0) ≤ turns.countP Turn.isTake + taken.length := by
        split
        · rename_i ht
          have := hpos ht
          omega
        · omega
      rw [List.countP_cons] at hcount
      obtain ⟨s', rest, hcollect, hlast, hsuffix, hused⟩ := ih
        (Nat.le_trans hbound (Nat.add_le_add_right htook.later _)) (by omega) hleft hnext hturns.2 (by omega)
      refine ⟨s', rest, ?_, hlast, hsuffix.trans (List.suffix_cons ..), ?_⟩
      · rw [collect, if_neg hs, hstep]
        exact hcollect
      · rw [List.countP_cons]
        omega

end

end Timed
