import Mathlib
import Caesar.Lib.Codec

/-!
# Byte strings as integers and as bits, most significant end first

`beNat` is a bijection from the strings of `w` bytes onto the numbers below
`256 ^ w`, so the strings below a bound can be counted (`card_beNat_lt`). Bits are
numbered from the most significant end of the first byte; a string is its bits
(`eq_of_bitAt`), and so is a number below `2 ^ w` (`eq_gather`).
-/

namespace Bits

open Codec (Bytes leNat leBytes leBytes_length leNat_leBytes leBytes_leNat)

/-- What holds of the bytes below a bound by evaluation. -/
theorem forall_byte {p : UInt8 → Prop} {n : Nat} (h : ∀ k < n, p (UInt8.ofNat k)) {b : UInt8} (hb : b.toNat < n) : p b := by
  have hk := h b.toNat hb
  rwa [UInt8.ofNat_toNat] at hk

/-! ## Big-endian integers -/

def beNat : Bytes → Nat
  | [] => 0
  | b :: bs => b.toNat * 256 ^ bs.length + beNat bs

theorem beNat_lt (bs : Bytes) : beNat bs < 256 ^ bs.length := by
  induction bs with
  | nil => simp [beNat]
  | cons b bs ih =>
    have hb : b.toNat + 1 ≤ 256 := b.toNat_lt
    calc b.toNat * 256 ^ bs.length + beNat bs
        < (b.toNat + 1) * 256 ^ bs.length := by rw [Nat.succ_mul]; omega
      _ ≤ 256 * 256 ^ bs.length := Nat.mul_le_mul_right _ hb
      _ = 256 ^ (b :: bs).length := by rw [List.length_cons, Nat.pow_succ, Nat.mul_comm]

theorem beNat_append (xs ys : Bytes) : beNat (xs ++ ys) = beNat xs * 256 ^ ys.length + beNat ys := by
  induction xs with
  | nil => simp [beNat]
  | cons b xs ih =>
    simp only [List.cons_append, beNat, List.length_append, ih, Nat.pow_add]
    ring

theorem beNat_reverse (bs : Bytes) : beNat bs.reverse = leNat bs := by
  induction bs with
  | nil => rfl
  | cons b bs ih =>
    rw [List.reverse_cons, beNat_append, ih]
    simp only [beNat, leNat, List.length_cons, List.length_nil, Nat.pow_zero]
    ring

def beBytes (w n : Nat) : Bytes := (leBytes w n).reverse

@[simp] theorem beBytes_length (w n : Nat) : (beBytes w n).length = w := by
  simp [beBytes]

theorem beNat_beBytes {w n : Nat} (h : n < 256 ^ w) : beNat (beBytes w n) = n := by
  rw [beBytes, beNat_reverse, leNat_leBytes w n h]

theorem beBytes_beNat (bs : Bytes) : beBytes bs.length (beNat bs) = bs := by
  have h := leBytes_leNat bs.reverse
  rw [← beNat_reverse, List.reverse_reverse, List.length_reverse] at h
  rw [beBytes, h, List.reverse_reverse]

theorem card_beNat_lt {w N : Nat} (hN : N ≤ 256 ^ w) :
    Nat.card { bs : { bs : Bytes // bs.length = w } // beNat bs.1 < N } = N := by
  have e : { bs : { bs : Bytes // bs.length = w } // beNat bs.1 < N } ≃ Fin N :=
    { toFun := fun bs => ⟨beNat bs.1.1, bs.2⟩
      invFun := fun i => ⟨⟨beBytes w i, beBytes_length w i⟩, by
        rw [beNat_beBytes (i.2.trans_le hN)]
        exact i.2⟩
      left_inv := by
        intro ⟨⟨bs, hlen⟩, _⟩
        subst hlen
        simp only [beBytes_beNat]
      right_inv := by
        intro i
        simp only [beNat_beBytes (i.2.trans_le hN)] }
  rw [Nat.card_congr e, Nat.card_fin]

/-! ## The bits of a byte string -/

def bitAt (bytes : Bytes) (pos : Nat) : Bool := (bytes.getD (pos / 8) 0).toNat.testBit (7 - pos % 8)

def setBit (bytes : Bytes) (pos : Nat) : Bytes :=
  bytes.modify (pos / 8) fun byte => byte ||| ((1 : UInt8) <<< UInt8.ofNat (7 - pos % 8))

@[simp] theorem setBit_length (bytes : Bytes) (pos : Nat) : (setBit bytes pos).length = bytes.length := by
  simp [setBit]

theorem testBit_or_one_shiftLeft (byte : UInt8) {k : Nat} (hk : k < 8) (j : Nat) :
    (byte ||| ((1 : UInt8) <<< UInt8.ofNat k)).toNat.testBit j = (byte.toNat.testBit j || decide (k = j)) := by
  have hpow : ((1 : UInt8) <<< UInt8.ofNat k).toNat = 2 ^ k := by
    interval_cases k <;> rfl
  rw [UInt8.toNat_or, hpow, Nat.testBit_or, Nat.testBit_two_pow]

theorem bitAt_setBit {bytes : Bytes} {p : Nat} (hp : p < 8 * bytes.length) (q : Nat) :
    bitAt (setBit bytes p) q = (bitAt bytes q || decide (p = q)) := by
  have hbyte : p / 8 < bytes.length := by omega
  have hq8 : q % 8 < 8 := Nat.mod_lt _ (by omega)
  unfold bitAt setBit
  by_cases hsame : p / 8 = q / 8
  · rw [← hsame, List.getD_eq_getElem _ _ (by simpa using hbyte), List.getElem_modify, if_pos rfl,
      testBit_or_one_shiftLeft _ (by omega), List.getD_eq_getElem _ _ hbyte]
    have hpos : (7 - p % 8 = 7 - q % 8) ↔ p = q := by omega
    simp only [hpos]
  · have hne : p ≠ q := fun h => hsame (by rw [h])
    simp [List.getD_eq_getElem?_getD, hsame, hne]

theorem bitAt_replicate_zero (n q : Nat) : bitAt (List.replicate n 0) q = false := by
  by_cases h : q / 8 < n
  · simp [bitAt, h]
  · simp [bitAt, h]

theorem eq_of_testBit_byte {a b : UInt8} (h : ∀ k < 8, a.toNat.testBit k = b.toNat.testBit k) : a = b := by
  apply UInt8.toNat.inj
  apply Nat.eq_of_testBit_eq
  intro k
  by_cases hk : k < 8
  · exact h k hk
  · have hpow : 2 ^ 8 ≤ 2 ^ k := Nat.pow_le_pow_right (by omega) (by omega)
    rw [Nat.testBit_lt_two_pow (a.toNat_lt.trans_le hpow), Nat.testBit_lt_two_pow (b.toNat_lt.trans_le hpow)]

theorem eq_of_bitAt {a b : Bytes} (hlen : a.length = b.length)
    (h : ∀ pos < 8 * a.length, bitAt a pos = bitAt b pos) : a = b := by
  apply List.ext_getElem hlen
  intro i ha hb
  apply eq_of_testBit_byte
  intro k hk
  have hbit := h (8 * i + (7 - k)) (by omega)
  have hdiv : (8 * i + (7 - k)) / 8 = i := by omega
  have hmod : 7 - (8 * i + (7 - k)) % 8 = k := by omega
  rwa [bitAt, bitAt, hdiv, hmod, List.getD_eq_getElem _ _ ha, List.getD_eq_getElem _ _ hb] at hbit

/-! ## Numbers from bits -/

/-- The bits `f 0, …, f (w - 1)` shifted in one after another. -/
def gather (w : Nat) (f : Nat → Bool) : Nat := (List.range w).foldl (fun n j => 2 * n + (f j).toNat) 0

theorem gather_succ (w : Nat) (f : Nat → Bool) : gather (w + 1) f = 2 * gather w f + (f w).toNat := by
  rw [gather, List.range_succ, List.foldl_append]
  rfl

theorem gather_lt (w : Nat) (f : Nat → Bool) : gather w f < 2 ^ w := by
  induction w with
  | zero => simp [gather]
  | succ w ih =>
    have hbit : (f w).toNat ≤ 1 := Bool.toNat_le _
    rw [gather_succ, Nat.pow_succ]
    omega

theorem testBit_gather (w : Nat) (f : Nat → Bool) {j : Nat} (hj : j < w) :
    (gather w f).testBit (w - 1 - j) = f j := by
  induction w with
  | zero => omega
  | succ w ih =>
    rw [gather_succ]
    by_cases hlast : j = w
    · rw [hlast, show w + 1 - 1 - w = 0 by omega, Nat.testBit_zero]
      cases f w <;> simp
    · have hdiv : (2 * gather w f + (f w).toNat) / 2 = gather w f := by
        have hbit : (f w).toNat ≤ 1 := Bool.toNat_le _
        omega
      rw [show w + 1 - 1 - j = (w - 1 - j) + 1 by omega, Nat.testBit_succ, hdiv, ih (by omega)]

theorem eq_gather {w n : Nat} {f : Nat → Bool} (hn : n < 2 ^ w) (h : ∀ j < w, n.testBit (w - 1 - j) = f j) :
    n = gather w f := by
  apply Nat.eq_of_testBit_eq
  intro k
  by_cases hk : k < w
  · have hbit := h (w - 1 - k) (by omega)
    have hgather := testBit_gather w f (j := w - 1 - k) (by omega)
    rw [show w - 1 - (w - 1 - k) = k by omega] at hbit hgather
    rw [hbit, hgather]
  · have hpow : 2 ^ w ≤ 2 ^ k := Nat.pow_le_pow_right (by omega) (by omega)
    rw [Nat.testBit_lt_two_pow (hn.trans_le hpow), Nat.testBit_lt_two_pow ((gather_lt w f).trans_le hpow)]

/-- Groups of one size laid end to end are indexed by quotient and remainder. -/
theorem getD_flatMap_uniform {α β : Type} {f : α → List β} {w : Nat} (hf : ∀ x, (f x).length = w) (d : β) :
    ∀ (l : List α) {i j : Nat} (hi : i < l.length), j < w → (l.flatMap f).getD (i * w + j) d = (f l[i]).getD j d
  | [], i, j, hi, _ => by simp at hi
  | x :: l, 0, j, _, hj => by
    rw [List.flatMap_cons, Nat.zero_mul, Nat.zero_add, List.getD_append _ _ _ _ (by rwa [hf])]
    rfl
  | x :: l, i + 1, j, hi, hj => by
    have hpos : (f x).length ≤ (i + 1) * w + j := by
      rw [hf, Nat.succ_mul]
      omega
    have hsub : (i + 1) * w + j - (f x).length = i * w + j := by
      rw [hf, Nat.succ_mul]
      omega
    rw [List.flatMap_cons, List.getD_append_right _ _ _ _ hpos, hsub]
    exact getD_flatMap_uniform hf d l (by simpa using hi) hj

end Bits
