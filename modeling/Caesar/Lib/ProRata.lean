import Mathlib

/-!
# Dividing a sum by shares

Everyone gets the rounded-down part of a pool. In 64 bits the product is reduced
before the division, which shows whenever it does not fit: the divisor itself is
below `2 ^ 64`.
-/

namespace ProRata

section
variable {α : Type}

/-- The part of the pool for `shares` of `total`. -/
def part (pool total shares : Nat) : Nat := pool * shares / total

theorem sum_parts_mul_le (pool total : Nat) (f : α → Nat) (l : List α) :
    (l.map fun x => part pool total (f x)).sum * total ≤ pool * (l.map f).sum := by
  induction l with
  | nil => simp
  | cons x l ih =>
    simp only [List.map_cons, List.sum_cons, Nat.add_mul, Nat.mul_add]
    exact Nat.add_le_add (Nat.div_mul_le_self _ _) ih

theorem sum_parts_le (pool : Nat) (f : α → Nat) (l : List α) :
    (l.map fun x => part pool (l.map f).sum (f x)).sum ≤ pool := by
  rcases Nat.eq_zero_or_pos (l.map f).sum with hzero | hpos
  · have hparts : ∀ x, part pool (l.map f).sum (f x) = 0 := by simp [part, hzero]
    simp [hparts]
  · exact Nat.le_of_mul_le_mul_right (sum_parts_mul_le pool _ f l) hpos

theorem foldl_add_toNat (f : α → UInt64) (l : List α) : ∀ start : UInt64,
    start.toNat + (l.map fun x => (f x).toNat).sum < 2 ^ 64 →
    (l.foldl (fun total x => total + f x) start).toNat = start.toNat + (l.map fun x => (f x).toNat).sum := by
  induction l with
  | nil => simp
  | cons x l ih =>
    intro start h
    rw [List.map_cons, List.sum_cons, ← Nat.add_assoc] at h ⊢
    have hstep : (start + f x).toNat = start.toNat + (f x).toNat := by
      rw [UInt64.toNat_add, Nat.mod_eq_of_lt (by omega)]
    rw [List.foldl_cons, ih _ (by rwa [hstep]), hstep]

end

/-- What a wrapped product loses is at least one whole divisor. -/
theorem mul_div_toNat_iff {pool total shares : UInt64} (htotal : 0 < total.toNat) :
    (pool * shares / total).toNat = part pool.toNat total.toNat shares.toNat ↔ pool.toNat * shares.toNat < 2 ^ 64 := by
  unfold part
  rw [UInt64.toNat_div, UInt64.toNat_mul]
  constructor
  · intro h
    by_contra hwraps
    have hlt := total.toNat_lt
    have hsplit := Nat.div_add_mod (pool.toNat * shares.toNat) (2 ^ 64)
    have hquot : 1 ≤ pool.toNat * shares.toNat / 2 ^ 64 := Nat.div_pos (by omega) (by decide)
    have hle : pool.toNat * shares.toNat % 2 ^ 64 + total.toNat ≤ pool.toNat * shares.toNat := by omega
    have hdiv := Nat.div_le_div_right (c := total.toNat) hle
    rw [Nat.add_div_right _ htotal] at hdiv
    omega
  · intro h
    rw [Nat.mod_eq_of_lt h]

end ProRata
