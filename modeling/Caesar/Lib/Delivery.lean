import Mathlib.Data.List.Basic

/-!
# A list that arrives in pieces

A source hands out a list in pieces of any size, with time-outs and
interruptions at any point. `collect` asks for a number of elements and gives up
at the first time-out; what it had taken by then is gone.
-/

namespace Delivery

/-- What one call for more elements meets; a piece has at most `n + 1` of them. -/
inductive Event (ε : Type) where
  | piece (n : Nat)
  | timeout
  | interrupted
  | failed (e : ε)
  deriving DecidableEq

/-- What is still to come, and what the calls for it will meet. -/
structure Source (ε α : Type) where
  rest : List α
  events : List (Event ε)
  deriving DecidableEq

inductive Collected (ε α : Type) where
  | all (got : List α) (source : Source ε α)
  | timeout (lost : List α) (source : Source ε α)
  | failed (e : ε)
  | waiting

section
variable {ε α : Type}

def collect (closed : ε) (size : Nat) : List (Event ε) → List α → List α → Collected ε α
  | [], rest, got => if size ≤ got.length then .all got ⟨rest, []⟩ else .waiting
  | event :: events, rest, got =>
    if size ≤ got.length then .all got ⟨rest, event :: events⟩
    else match event with
      | .piece n =>
        if rest.isEmpty then .failed closed
        else
          let k := min (n + 1) (size - got.length)
          collect closed size events (rest.drop k) (got ++ rest.take k)
      | .timeout => .timeout got ⟨rest, events⟩
      | .interrupted => collect closed size events rest got
      | .failed e => .failed e

variable {closed : ε} {size : Nat}

theorem collect_done (events : List (Event ε)) (rest : List α) {got : List α} (h : size ≤ got.length) :
    collect closed size events rest got = .all got ⟨rest, events⟩ := by
  unfold collect
  cases events with
  | nil => exact if_pos h
  | cons event events => exact if_pos h

theorem collect_all : ∀ {events : List (Event ε)} {rest got data : List α} {source : Source ε α},
    collect closed size events rest got = .all data source → got.length ≤ size →
      data.length = size ∧ data ++ source.rest = got ++ rest := by
  intro events
  induction events with
  | nil =>
    intro rest got data source h hle
    unfold collect at h
    by_cases hs : size ≤ got.length
    · rw [if_pos hs] at h
      cases h
      exact ⟨by omega, rfl⟩
    · rw [if_neg hs] at h
      cases h
  | cons event events ih =>
    intro rest got data source h hle
    unfold collect at h
    by_cases hs : size ≤ got.length
    · rw [if_pos hs] at h
      cases h
      exact ⟨by omega, rfl⟩
    · rw [if_neg hs] at h
      cases event with
      | piece n =>
        simp only at h
        by_cases hr : rest.isEmpty
        · rw [if_pos hr] at h
          cases h
        · rw [if_neg hr] at h
          obtain ⟨hlen, he⟩ := ih h (by rw [List.length_append, List.length_take]; omega)
          refine ⟨hlen, ?_⟩
          rw [he, List.append_assoc, List.take_append_drop]
      | timeout => cases h
      | interrupted => exact ih h hle
      | failed e => cases h

theorem collect_timeout : ∀ {events : List (Event ε)} {rest got lost : List α} {source : Source ε α},
    collect closed size events rest got = .timeout lost source → lost ++ source.rest = got ++ rest := by
  intro events
  induction events with
  | nil =>
    intro rest got lost source h
    unfold collect at h
    by_cases hs : size ≤ got.length
    · rw [if_pos hs] at h
      cases h
    · rw [if_neg hs] at h
      cases h
  | cons event events ih =>
    intro rest got lost source h
    unfold collect at h
    by_cases hs : size ≤ got.length
    · rw [if_pos hs] at h
      cases h
    · rw [if_neg hs] at h
      cases event with
      | piece n =>
        simp only at h
        by_cases hr : rest.isEmpty
        · rw [if_pos hr] at h
          cases h
        · rw [if_neg hr] at h
          rw [ih h, List.append_assoc, List.take_append_drop]
      | timeout =>
        cases h
        rfl
      | interrupted => exact ih h
      | failed e => cases h

end

end Delivery
