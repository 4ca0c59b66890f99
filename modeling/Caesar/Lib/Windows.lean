import Mathlib.Data.List.Flatten
import Mathlib.Logic.Function.Basic

/-!
# Fixed windows

A counter for each key that admits up to `limit` events in a window. The first
event opens the window, which is over after `span`; the next event then opens
another. So the windows of a key are `span` apart: an interval of that length
meets two of them at most, and misses the event that opened the older one.
-/

namespace Windows

/-- The event that opened it, and those after it with the newest first. -/
structure Window where
  start : Nat
  later : List Nat

def Window.times (w : Window) : List Nat := w.later ++ [w.start]

/-- The windows of a key, with the newest first. -/
structure History (limit span : Nat) where
  windows : List Window
  size_le : ∀ w ∈ windows, w.times.length ≤ limit
  inside : ∀ w ∈ windows, ∀ t ∈ w.times, w.start ≤ t ∧ t < w.start + span
  apart : windows.Pairwise fun newer older => older.start + span ≤ newer.start

def History.times {limit span : Nat} (h : History limit span) : List Nat := h.windows.flatMap Window.times

def History.empty {limit span : Nat} : History limit span := ⟨[], nofun, nofun, .nil⟩

def within (lo hi : Nat) (times : List Nat) : Nat := times.countP fun t => lo ≤ t ∧ t < hi

/-! ## Counting -/

section
variable {lo hi : Nat}

theorem within_append (times more : List Nat) : within lo hi (times ++ more) = within lo hi times + within lo hi more :=
  List.countP_append

theorem within_eq_zero {times : List Nat} (h : ∀ t ∈ times, t < lo ∨ hi ≤ t) : within lo hi times = 0 := by
  rw [within, List.countP_eq_zero]
  intro t ht
  have := h t ht
  simp only [decide_eq_true_eq]
  omega

end

namespace History

variable {limit span since : Nat} {w : Window} {rest : List Window}

def tail (h : History limit span) (hws : h.windows = w :: rest) : History limit span where
  windows := rest
  size_le := fun v hv => h.size_le v (by simp [hws, hv])
  inside := fun v hv => h.inside v (by simp [hws, hv])
  apart := (List.pairwise_cons.mp (hws ▸ h.apart)).2

theorem times_cons {h : History limit span} (hws : h.windows = w :: rest) : h.times = w.times ++ (h.tail hws).times := by
  rw [times, hws]
  rfl

theorem newest_apart {h : History limit span} (hws : h.windows = w :: rest) : ∀ v ∈ rest, v.start + span ≤ w.start :=
  (List.pairwise_cons.mp (hws ▸ h.apart)).1

theorem lt_newest {h : History limit span} (hws : h.windows = w :: rest) : ∀ t ∈ (h.tail hws).times, t < w.start := by
  intro t ht
  obtain ⟨v, hv, htv⟩ := List.mem_flatMap.mp ht
  exact Nat.lt_of_lt_of_le ((h.tail hws).inside v hv t htv).2 (newest_apart hws v hv)

theorem within_lt {h : History limit span} {hi : Nat} (hlimit : 0 < limit) (hstart : ∀ w ∈ h.windows, w.start < since) :
    within since hi h.times < limit := by
  cases hws : h.windows with
  | nil => simpa [times, hws, within] using hlimit
  | cons w rest =>
    have hw : w ∈ h.windows := by simp [hws]
    -- the older windows are over before the newest starts, and its own start does not count
    have holder : within since hi (h.tail hws).times = 0 :=
      within_eq_zero fun t ht => Or.inl (Nat.lt_trans (lt_newest hws t ht) (hstart w hw))
    have hopened : within since hi [w.start] = 0 := within_eq_zero (by simp [hstart w hw])
    have hlater : within since hi w.later ≤ w.later.length := List.countP_le_length
    have hsize := h.size_le w hw
    rw [Window.times, List.length_append, List.length_singleton] at hsize
    rw [times_cons hws, within_append, Window.times, within_append, holder, hopened]
    exact Nat.lt_of_lt_of_le (Nat.lt_succ_of_le hlater) hsize

/-- Twice the limit is not reached in any interval as long as a window. -/
theorem within_span_lt (hlimit : 0 < limit) : ∀ {ws : List Window} {h : History limit span}, h.windows = ws →
    within since (since + span) h.times < 2 * limit
  | [], h, hws => by simpa [times, hws, within] using hlimit
  | w :: rest, h, hws => by
    have hw : w ∈ h.windows := by simp [hws]
    rw [times_cons hws, within_append]
    -- the newest window starts past the interval, or all older ones start before it
    by_cases hpast : since + span ≤ w.start
    · have hnone : within since (since + span) w.times = 0 :=
        within_eq_zero fun t ht => Or.inr (Nat.le_trans hpast (h.inside w hw t ht).1)
      rw [hnone, Nat.zero_add]
      exact within_span_lt hlimit rfl
    · have holder : within since (since + span) (h.tail hws).times < limit := by
        apply within_lt hlimit
        intro v hv
        have := newest_apart hws v hv
        omega
      have hnewest : within since (since + span) w.times ≤ limit := Nat.le_trans List.countP_le_length (h.size_le w hw)
      omega

/-- The events in the time of a window are its own. -/
theorem within_window : ∀ {ws : List Window} {h : History limit span}, h.windows = ws → ∀ {w : Window}, w ∈ h.windows →
    within w.start (w.start + span) h.times = w.times.length
  | [], h, hws, w, hw => by simp [hws] at hw
  | newest :: rest, h, hws, w, hw => by
    rw [times_cons hws, within_append]
    rcases List.mem_cons.mp (hws ▸ hw) with rfl | hrest
    · rw [within_eq_zero fun t ht => Or.inl (lt_newest hws t ht), Nat.add_zero, within, List.countP_eq_length]
      simpa using h.inside w hw
    · have hnewer : within w.start (w.start + span) newest.times = 0 := by
        apply within_eq_zero
        intro t ht
        exact Or.inr (Nat.le_trans (newest_apart hws w hrest) (h.inside newest (by simp [hws]) t ht).1)
      rw [hnewer, Nat.zero_add]
      exact within_window rfl hrest

end History

/-! ## Counters -/

/-- The start of the open window, and its events. -/
abbrev Entry := Option (Nat × Nat)

section
variable (limit span : Nat)

def expire (now : Nat) (entry : Entry) : Entry := entry.filter fun e => now - e.1 < span

def record (now : Nat) : Entry → Nat × Nat
  | none => (now, 1)
  | some (start, count) => (start, count + 1)

/-- An event of `key` at `now`. What is over is dropped for all keys; whether there is
room for a new window is left open. -/
inductive Step {α : Type} [DecidableEq α] (now : Nat) (key : α) (table : α → Entry) : (α → Entry) → Bool → Prop
  | refused {live : α → Entry} : (∀ k, live k = expire span now (table k)) → Step now key table live false
  | admitted {live : α → Entry} : (∀ k, live k = expire span now (table k)) →
    (∀ start count, live key = some (start, count) → count < limit) →
    Step now key table (Function.update live key (record now (live key))) true

/-- The entry is the newest window, or that one is over. -/
def Tracks (now : Nat) (h : History limit span) : Entry → Prop
  | none => ∀ w ∈ h.windows, w.start + span ≤ now
  | some (start, count) => ∃ w rest, h.windows = w :: rest ∧ w.start = start ∧ w.times.length = count

end

section
variable {limit span now : Nat} {h : History limit span} {entry : Entry}

/-- Each window of `h` is one of `after`, where it may have counted more. -/
def History.Grows (h after : History limit span) : Prop := ∀ w ∈ h.windows, ∃ v ∈ after.windows, v.start = w.start

theorem History.Grows.refl (h : History limit span) : h.Grows h := fun w hw => ⟨w, hw, rfl⟩

theorem History.Grows.trans {h mid after : History limit span} (hmid : h.Grows mid) (hafter : mid.Grows after) : h.Grows after := by
  intro w hw
  obtain ⟨v, hv, hstart⟩ := hmid w hw
  obtain ⟨u, hu, hsame⟩ := hafter v hv
  exact ⟨u, hu, hsame.trans hstart⟩

theorem History.start_le (hpast : ∀ t ∈ h.times, t ≤ now) {w : Window} (hw : w ∈ h.windows) : w.start ≤ now :=
  hpast w.start (List.mem_flatMap.mpr ⟨w, hw, by simp [Window.times]⟩)

theorem Tracks.mono {later : Nat} (ht : Tracks limit span now h entry) (hnow : now ≤ later) : Tracks limit span later h entry := by
  match entry with
  | none => exact fun w hw => Nat.le_trans (ht w hw) hnow
  | some (_, _) => exact ht

theorem Tracks.expire {later : Nat} (ht : Tracks limit span now h entry) (hpast : ∀ t ∈ h.times, t ≤ now) (hnow : now ≤ later) :
    Tracks limit span later h (Windows.expire span later entry) := by
  match entry with
  | none => exact fun w hw => Nat.le_trans (ht w hw) hnow
  | some (start, count) =>
    rw [Windows.expire, Option.filter_some]
    by_cases hlive : later - start < span
    · rw [if_pos (by simpa using hlive)]
      exact ht
    · rw [if_neg (by simpa using hlive)]
      obtain ⟨w, rest, hws, rfl, -⟩ := ht
      have hw : w ∈ h.windows := by simp [hws]
      have hstart := Nat.le_trans (h.start_le hpast hw) hnow
      have hover : w.start + span ≤ later := by omega
      intro v hv
      rcases List.mem_cons.mp (hws ▸ hv) with rfl | hv
      · exact hover
      · exact Nat.le_trans (History.newest_apart hws v hv) hstart

theorem Tracks.opened (ht : Tracks limit span now h none) (hlimit : 0 < limit) (hspan : 0 < span) :
    ∃ after : History limit span, Tracks limit span now after (some (now, 1)) ∧ after.times = now :: h.times ∧ h.Grows after := by
  refine ⟨⟨⟨now, []⟩ :: h.windows, ?_, ?_, List.pairwise_cons.mpr ⟨ht, h.apart⟩⟩, ⟨_, _, rfl, rfl, rfl⟩, rfl, ?_⟩
  · exact List.forall_mem_cons.mpr ⟨hlimit, h.size_le⟩
  · refine List.forall_mem_cons.mpr ⟨?_, h.inside⟩
    simpa [Window.times] using hspan
  · exact fun w hw => ⟨w, List.mem_cons_of_mem _ hw, rfl⟩

theorem Tracks.counted {start count : Nat} (ht : Tracks limit span now h (some (start, count))) (hpast : ∀ t ∈ h.times, t ≤ now)
    (hroom : count < limit) (hlive : now < start + span) :
    ∃ after : History limit span, Tracks limit span now after (some (start, count + 1)) ∧ after.times = now :: h.times ∧
      h.Grows after := by
  obtain ⟨w, rest, hws, rfl, rfl⟩ := ht
  have hw : w ∈ h.windows := by simp [hws]
  have hstart := h.start_le hpast hw
  have hapart := History.newest_apart hws
  refine ⟨⟨⟨w.start, now :: w.later⟩ :: rest, ?_, ?_, ?_⟩, ⟨_, _, rfl, rfl, rfl⟩, ?_, ?_⟩
  · exact List.forall_mem_cons.mpr ⟨hroom, (h.tail hws).size_le⟩
  · refine List.forall_mem_cons.mpr ⟨?_, (h.tail hws).inside⟩
    exact List.forall_mem_cons.mpr ⟨⟨hstart, hlive⟩, h.inside w hw⟩
  · exact List.pairwise_cons.mpr ⟨hapart, (h.tail hws).apart⟩
  · rw [History.times_cons hws]
    rfl
  · intro v hv
    rcases List.mem_cons.mp (hws ▸ hv) with rfl | hv
    · exact ⟨_, List.mem_cons_self, rfl⟩
    · exact ⟨v, List.mem_cons_of_mem _ hv, rfl⟩

end

/-! ## Tables -/

section
variable {α : Type} [DecidableEq α]

def timesOf (key : α) (log : List (Nat × α)) : List Nat := (log.filter fun event => event.2 = key).map Prod.fst

/-- The counters stand for windows whose events are the log. -/
structure Accounts (limit span now : Nat) (table : α → Entry) (log : List (Nat × α)) (histories : α → History limit span) :
    Prop where
  tracks : ∀ key, Tracks limit span now (histories key) (table key)
  times : ∀ key, (histories key).times = timesOf key log
  past : ∀ event ∈ log, event.1 ≤ now

variable {limit span now later : Nat} {table after : α → Entry} {log : List (Nat × α)} {histories : α → History limit span}
  {key : α} {allowed : Bool}

theorem Accounts.times_le (ha : Accounts limit span now table log histories) (key : α) :
    ∀ t ∈ (histories key).times, t ≤ now := by
  intro t ht
  rw [ha.times, timesOf] at ht
  obtain ⟨event, hevent, rfl⟩ := List.mem_map.mp ht
  exact ha.past event (List.mem_filter.mp hevent).1

theorem Accounts.mono (ha : Accounts limit span now table log histories) (hnow : now ≤ later) :
    Accounts limit span later table log histories :=
  ⟨fun k => (ha.tracks k).mono hnow, ha.times, fun event he => Nat.le_trans (ha.past event he) hnow⟩

theorem Accounts.count {start count : Nat} (ha : Accounts limit span now table log histories)
    (hentry : table key = some (start, count)) :
    count ≤ limit ∧ count = within start (start + span) (timesOf key log) ∧ start ∈ timesOf key log := by
  have ht := ha.tracks key
  rw [hentry] at ht
  obtain ⟨w, rest, hws, rfl, rfl⟩ := ht
  have hw : w ∈ (histories key).windows := by simp [hws]
  rw [← ha.times]
  exact ⟨(histories key).size_le w hw, (History.within_window rfl hw).symm,
    List.mem_flatMap.mpr ⟨w, hw, by simp [Window.times]⟩⟩

/-- No more than the limit is ever counted in the time of a window. -/
theorem Accounts.window_le {grown : α → History limit span} {table' : α → Entry} {log' : List (Nat × α)} {start count : Nat}
    (ha : Accounts limit span now table log histories) (ha' : Accounts limit span later table' log' grown)
    (hgrows : (histories key).Grows (grown key)) (hentry : table key = some (start, count)) :
    within start (start + span) (timesOf key log') ≤ limit := by
  have ht := ha.tracks key
  rw [hentry] at ht
  obtain ⟨w, rest, hws, rfl, -⟩ := ht
  obtain ⟨v, hv, hsame⟩ := hgrows w (by simp [hws])
  rw [← ha'.times, ← hsame, History.within_window rfl hv]
  exact (grown key).size_le v hv

theorem Accounts.within_lt (ha : Accounts limit span now table log histories) (hlimit : 0 < limit) (key : α) (since : Nat) :
    within since (since + span) (timesOf key log) < 2 * limit := by
  rw [← ha.times]
  exact History.within_span_lt hlimit rfl

theorem Accounts.expire {live : α → Entry} (ha : Accounts limit span now table log histories) (hnow : now ≤ later)
    (hlive : ∀ k, live k = Windows.expire span later (table k)) : Accounts limit span later live log histories := by
  refine ⟨?_, ha.times, fun event he => Nat.le_trans (ha.past event he) hnow⟩
  intro k
  rw [hlive]
  exact (ha.tracks k).expire (ha.times_le k) hnow

theorem Accounts.record (ha : Accounts limit span now table log histories) {grown : History limit span} {entry : Entry}
    (htracks : Tracks limit span now grown entry) (htimes : grown.times = now :: (histories key).times) :
    Accounts limit span now (Function.update table key entry) ((now, key) :: log) (Function.update histories key grown) := by
  refine ⟨?_, ?_, List.forall_mem_cons.mpr ⟨Nat.le_refl _, ha.past⟩⟩
  · intro k
    by_cases hk : k = key
    · subst hk
      simpa using htracks
    · simpa [hk] using ha.tracks k
  · intro k
    by_cases hk : k = key
    · subst hk
      simpa [timesOf, ha.times] using htimes
    · have hkey : ¬ key = k := fun e => hk e.symm
      simpa [hk, timesOf, hkey] using ha.times k

theorem Accounts.empty : Accounts limit span now (fun _ : α => none) [] fun _ => .empty := ⟨fun _ => nofun, fun _ => rfl, nofun⟩

theorem Step.accounts (hs : Step limit span later key table after allowed) (ha : Accounts limit span now table log histories)
    (hnow : now ≤ later) (hlimit : 0 < limit) (hspan : 0 < span) :
    ∃ grown : α → History limit span, Accounts limit span later after (if allowed then (later, key) :: log else log) grown ∧
      ∀ k, (histories k).Grows (grown k) := by
  cases hs with
  | refused hlive => exact ⟨histories, ha.expire hnow hlive, fun k => .refl _⟩
  | @admitted live hlive hroom =>
    have hexpired := ha.expire hnow hlive
    have hkey := hexpired.tracks key
    have hone : ∃ h : History limit span, Tracks limit span later h (some (Windows.record later (live key))) ∧
        h.times = later :: (histories key).times ∧ (histories key).Grows h := by
      cases hentry : live key with
      | none =>
        rw [hentry] at hkey
        exact hkey.opened hlimit hspan
      | some entry =>
        obtain ⟨start, count⟩ := entry
        rw [hentry] at hkey
        have hopen : later - start < span := by
          simpa using (Option.filter_eq_some_iff.mp ((hlive key).symm.trans hentry)).2
        exact hkey.counted (hexpired.times_le key) (hroom start count hentry) (by omega)
    obtain ⟨h, htracks, htimes, hgrows⟩ := hone
    refine ⟨Function.update histories key h, hexpired.record htracks htimes, ?_⟩
    intro k
    by_cases hk : k = key
    · subst hk
      simpa using hgrows
    · simpa [hk] using History.Grows.refl (histories k)

end

end Windows
