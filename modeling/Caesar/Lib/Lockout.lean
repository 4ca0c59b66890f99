import Mathlib.Tactic.SplitIfs

/-!
# Lockout counters

A counter of failures with the time of the last one. When it reaches a limit,
attempts are refused until a span has passed since the last failure, and then it
starts again. `pending` bounds the failures since a time by the counter: it does
not fall while a span from that time lasts, and every recorded failure raises it.
-/

namespace Lockout

abbrev Entry := Option (Nat × Nat)

section
variable (limit span : Nat)

/-- The entry after an attempt was let through. -/
def check (now : Nat) : Entry → Option Entry
  | none => some none
  | some (count, last) =>
    if limit ≤ count then if now < last + span then none else some none else some (some (count, last))

def record (now : Nat) (entry : Entry) : Entry := some ((entry.getD (0, 0)).1 + 1, now)

/-- The failures that the entry stands for, if the last of them was not before `since`. -/
def pending (since : Nat) : Entry → Nat
  | none => 0
  | some (count, last) => if since ≤ last then min count limit else 0

end

variable {limit span since now : Nat} {entry after : Entry}

theorem pending_le (limit since : Nat) (entry : Entry) : pending limit since entry ≤ limit := by
  match entry with
  | none => exact Nat.zero_le _
  | some (count, last) =>
    rw [pending]
    split
    · exact Nat.min_le_right _ _
    · exact Nat.zero_le _

/-- Letting an attempt through drops no failure of the last span. -/
theorem pending_check (h : check limit span now entry = some after) (hnow : now < since + span) :
    pending limit since entry ≤ pending limit since after := by
  match entry with
  | none => exact Nat.zero_le _
  | some (count, last) =>
    rw [check] at h
    split_ifs at h with hfull hrecent
    · rw [pending, if_neg (by omega)]
      exact Nat.zero_le _
    · exact Nat.le_of_eq (congrArg (pending limit since) (Option.some.inj h))

theorem pending_record (h : check limit span now entry = some after) (hlimit : 0 < limit) (hsince : since ≤ now) :
    pending limit since after + 1 ≤ pending limit since (record now after) := by
  have hroom : (after.getD (0, 0)).1 + 1 ≤ limit := by
    match entry with
    | none =>
      rw [← Option.some.inj h]
      exact hlimit
    | some (count, last) =>
      rw [check] at h
      split_ifs at h with hfull hrecent
      · rw [← Option.some.inj h]
        exact hlimit
      · rw [← Option.some.inj h]
        exact Nat.lt_of_not_le hfull
  rw [record, pending, if_pos hsince, Nat.min_eq_left hroom]
  match after with
  | none => exact Nat.le_refl 1
  | some (count, last) =>
    rw [pending]
    split
    · exact Nat.succ_le_succ (Nat.min_le_left _ _)
    · exact Nat.succ_le_succ (Nat.zero_le _)

end Lockout
