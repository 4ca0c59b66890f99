import Mathlib.Data.List.Induction
import Mathlib.Tactic.Ring

/-!
# Multi-limb unsigned integers

Little-endian lists of 64-bit limbs: addition with a carry, and comparison from
the most significant limb down. `value` is the number a list stands for.
-/

namespace Limbs

def value : List UInt64 → Nat
  | [] => 0
  | a :: as => a.toNat + 2 ^ 64 * value as

def add (carry : UInt64) : List UInt64 → List UInt64 → List UInt64 × UInt64
  | a :: as, b :: bs =>
    let sum := a + b
    let carry1 : UInt64 := if sum < a then 1 else 0
    let sum2 := sum + carry
    let carry2 : UInt64 := if sum2 < sum then 1 else 0
    let (rest, out) := add (carry1 ||| carry2) as bs
    (sum2 :: rest, out)
  | _, _ => ([], carry)

def ltBigEndian : List UInt64 → List UInt64 → Bool
  | a :: as, b :: bs => if a < b then true else if a > b then false else ltBigEndian as bs
  | _, _ => false

def lt (as bs : List UInt64) : Bool := ltBigEndian as.reverse bs.reverse

theorem add_length : ∀ (carry : UInt64) (as bs : List UInt64), as.length = bs.length →
    (add carry as bs).1.length = as.length
  | _, [], [], _ => rfl
  | carry, a :: as, b :: bs, h => by
    simp only [add, List.length_cons, add_length _ as bs (by simpa using h)]

theorem add_limb {a b carry : UInt64} (hc : carry.toNat ≤ 1) :
    let sum := a + b
    let out : UInt64 := (if sum < a then 1 else 0) ||| (if sum + carry < sum then 1 else 0)
    out.toNat ≤ 1 ∧ (sum + carry).toNat + 2 ^ 64 * out.toNat = a.toNat + b.toNat + carry.toNat := by
  have ha := a.toNat_lt
  have hb := b.toNat_lt
  simp only [UInt64.lt_iff_toNat_lt, UInt64.toNat_add]
  by_cases h₁ : (a.toNat + b.toNat) % 2 ^ 64 < a.toNat <;>
    by_cases h₂ : ((a.toNat + b.toNat) % 2 ^ 64 + carry.toNat) % 2 ^ 64 < (a.toNat + b.toNat) % 2 ^ 64
  · exfalso; omega
  · simp only [h₁, h₂, ite_true, ite_false]
    refine ⟨by decide, ?_⟩
    rw [show (1 ||| 0 : UInt64).toNat = 1 from rfl]
    omega
  · simp only [h₁, h₂, ite_true, ite_false]
    refine ⟨by decide, ?_⟩
    rw [show (0 ||| 1 : UInt64).toNat = 1 from rfl]
    omega
  · simp only [h₁, h₂, ite_false]
    refine ⟨by decide, ?_⟩
    rw [show (0 ||| 0 : UInt64).toNat = 0 from rfl]
    omega

theorem add_value : ∀ (carry : UInt64) (as bs : List UInt64), carry.toNat ≤ 1 → as.length = bs.length →
    value (add carry as bs).1 + 2 ^ (64 * as.length) * (add carry as bs).2.toNat =
      value as + value bs + carry.toNat
  | carry, [], [], _, _ => by simp [add, value]
  | carry, a :: as, b :: bs, hc, h => by
    obtain ⟨hout, hlimb⟩ := add_limb (a := a) (b := b) hc
    have ih := add_value _ as bs hout (by simpa using h)
    simp only [add, value, List.length_cons] at ih ⊢
    have hpow : 2 ^ (64 * (as.length + 1)) = 2 ^ 64 * 2 ^ (64 * as.length) := by
      rw [Nat.mul_add, Nat.pow_add, Nat.mul_comm]
    rw [hpow, Nat.mul_assoc]
    simp only [Nat.reducePow] at *
    omega

theorem value_lt : ∀ as : List UInt64, value as < 2 ^ (64 * as.length)
  | [] => by simp [value]
  | a :: as => by
    have ha := a.toNat_lt
    have ih := value_lt as
    have hpow : 2 ^ (64 * (as.length + 1)) = 2 ^ 64 * 2 ^ (64 * as.length) := by
      rw [Nat.mul_add, Nat.pow_add, Nat.mul_comm]
    simp only [value, List.length_cons, hpow, Nat.reducePow] at *
    omega

theorem value_append : ∀ as bs : List UInt64, value (as ++ bs) = value as + 2 ^ (64 * as.length) * value bs
  | [], bs => by simp [value]
  | a :: as, bs => by
    have hpow : 2 ^ (64 * (as.length + 1)) = 2 ^ 64 * 2 ^ (64 * as.length) := by
      rw [Nat.mul_add, Nat.pow_add, Nat.mul_comm]
    simp only [List.cons_append, value, value_append as bs, List.length_cons, hpow]
    ring

theorem lt_iff : ∀ as bs : List UInt64, as.length = bs.length → (lt as bs = true ↔ value as < value bs) := by
  intro as
  induction as using List.reverseRecOn with
  | nil => intro bs h; cases bs with
    | nil => simp [lt, ltBigEndian]
    | cons b bs => simp at h
  | append_singleton as a ih =>
    intro bs h
    rcases List.eq_nil_or_concat bs with rfl | ⟨bs, b, rfl⟩
    · simp at h
    · have hlen : as.length = bs.length := by simpa using h
      have ih := ih bs hlen
      have ha := value_lt as
      have hb := value_lt bs
      simp only [List.concat_eq_append, lt, List.reverse_append, List.reverse_singleton, List.singleton_append,
        ltBigEndian, value_append, value, UInt64.lt_iff_toNat_lt, gt_iff_lt, hlen] at ih ha ⊢
      generalize 2 ^ (64 * bs.length) = p at *
      rcases Nat.lt_trichotomy a.toNat b.toNat with hab | hab | hab
      · simp only [hab, ite_true, true_iff]
        have := Nat.mul_le_mul_left p hab
        rw [Nat.mul_succ] at this
        simp only [Nat.mul_zero, Nat.add_zero]
        omega
      · simp only [hab, lt_irrefl, ite_false, ih]
        omega
      · have hn : ¬ a.toNat < b.toNat := by omega
        simp only [hn, hab, ite_true, ite_false, Bool.false_eq_true, false_iff]
        have := Nat.mul_le_mul_left p hab
        rw [Nat.mul_succ] at this
        simp only [Nat.mul_zero, Nat.add_zero]
        omega

theorem value_set_bit : ∀ (n i : Nat) (e : Nat), i < n → e < 64 →
    value ((List.replicate n 0).set i ((1 : UInt64) <<< UInt64.ofNat e)) = 2 ^ (64 * i + e)
  | n + 1, 0, e, _, he => by
    have hz : ∀ k, value (List.replicate k 0) = 0 := by
      intro k
      induction k with
      | zero => rfl
      | succ k ih => simp [List.replicate_succ, value, ih]
    have hs : ((1 : UInt64) <<< UInt64.ofNat e).toNat = 2 ^ e := by
      rw [UInt64.toNat_shiftLeft, UInt64.toNat_ofNat']
      have : e % 2 ^ 64 % 64 = e := by omega
      rw [this, UInt64.toNat_one, Nat.one_shiftLeft]
      exact Nat.mod_eq_of_lt (Nat.pow_lt_pow_right (by omega) he)
    simp [List.replicate_succ, value, hz, hs]
  | n + 1, i + 1, e, hi, he => by
    simp only [List.replicate_succ, List.set_cons_succ, value, UInt64.toNat_zero, Nat.zero_add,
      value_set_bit n i e (by omega) he]
    rw [← Nat.pow_add]
    congr 1
    omega

end Limbs
