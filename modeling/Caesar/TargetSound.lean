import Caesar.WorkSound
import Caesar.Lib.Bits

/-!
# A difficulty is a numeric target

Counting leading zero bits compares the hash, read most significant byte first,
with a power of two (`le_countLeadingZeros_iff`).
-/

namespace Caesar

open Codec (Bytes)
open Bits

/-! ## Leading zeros of a byte string -/

/-- The highest set bit is the first below the zeros. -/
theorem leadingZerosOfByte_bounds (byte : UInt8) : byte.toNat < 2 ^ (8 - leadingZerosOfByte byte) ∧
    (8 ≤ leadingZerosOfByte byte ∨ 2 ^ (8 - leadingZerosOfByte byte) ≤ 2 * byte.toNat) :=
  forall_byte (p := fun byte => byte.toNat < 2 ^ (8 - leadingZerosOfByte byte) ∧
    (8 ≤ leadingZerosOfByte byte ∨ 2 ^ (8 - leadingZerosOfByte byte) ≤ 2 * byte.toNat)) (by decide +kernel) byte.toNat_lt

theorem le_leadingZerosOfByte_iff (byte : UInt8) {k : Nat} (hk : k ≤ 8) :
    k ≤ leadingZerosOfByte byte ↔ byte.toNat < 2 ^ (8 - k) := by
  obtain ⟨hlt, hge⟩ := leadingZerosOfByte_bounds byte
  constructor
  · intro hle
    apply hlt.trans_le
    exact Nat.pow_le_pow_right (by omega) (by omega)
  · intro hbyte
    by_contra hmore
    obtain hzero | hge := hge
    · omega
    · have hpow : 2 ^ (8 - leadingZerosOfByte byte) < 2 ^ (8 - k + 1) := by
        rw [Nat.pow_succ]
        omega
      have := (Nat.pow_lt_pow_iff_right (by omega)).mp hpow
      omega

theorem leadingZerosOfByte_lt {byte : UInt8} (h : byte ≠ 0) : leadingZerosOfByte byte < 8 := by
  by_contra hle
  have hbyte := (le_leadingZerosOfByte_iff byte le_rfl).mp (Nat.le_of_not_lt hle)
  apply h
  apply UInt8.toNat.inj
  simpa using hbyte

theorem countLeadingZeros_le (bytes : Bytes) : countLeadingZeros bytes ≤ 8 * bytes.length := by
  induction bytes with
  | nil => simp [countLeadingZeros]
  | cons byte rest ih =>
    unfold countLeadingZeros
    by_cases hb : byte = 0
    · simp only [hb, if_true, List.length_cons]
      omega
    · have := leadingZerosOfByte_lt hb
      simp only [hb, if_false, List.length_cons]
      omega

theorem two_pow_mul_eight (n : Nat) : 2 ^ (8 * n) = 256 ^ n := by
  rw [Nat.pow_mul]

theorem le_countLeadingZeros_iff (bytes : Bytes) {k : Nat} (hk : k ≤ 8 * bytes.length) :
    k ≤ countLeadingZeros bytes ↔ beNat bytes < 2 ^ (8 * bytes.length - k) := by
  induction bytes generalizing k with
  | nil =>
    simp only [List.length_nil, Nat.mul_zero, Nat.le_zero] at hk
    simp [hk, beNat]
  | cons byte rest ih =>
    have hrest := beNat_lt rest
    rw [List.length_cons] at hk
    simp only [countLeadingZeros, beNat, List.length_cons]
    by_cases hk8 : k ≤ 8
    · -- the first byte decides: what follows is below one unit of it
      have hpow : 2 ^ (8 * (rest.length + 1) - k) = 2 ^ (8 - k) * 256 ^ rest.length := by
        rw [← two_pow_mul_eight, ← Nat.pow_add]
        congr 1
        omega
      have hvalue : byte.toNat * 256 ^ rest.length + beNat rest < 2 ^ (8 - k) * 256 ^ rest.length ↔
          byte.toNat < 2 ^ (8 - k) := by
        constructor
        · intro h
          exact Nat.lt_of_mul_lt_mul_right (Nat.lt_of_le_of_lt (Nat.le_add_right _ _) h)
        · intro h
          calc byte.toNat * 256 ^ rest.length + beNat rest
              < (byte.toNat + 1) * 256 ^ rest.length := by rw [Nat.succ_mul]; omega
            _ ≤ 2 ^ (8 - k) * 256 ^ rest.length := Nat.mul_le_mul_right _ h
      rw [hpow, hvalue, ← le_leadingZerosOfByte_iff byte hk8]
      by_cases hb : byte = 0
      · have hzero := (le_leadingZerosOfByte_iff (0 : UInt8) hk8).mpr (by simp)
        simp only [hb, if_true, hzero, iff_true]
        omega
      · simp [hb]
    · by_cases hb : byte = 0
      · have hexp : 8 * (rest.length + 1) - k = 8 * rest.length - (k - 8) := by omega
        have hiff := ih (k := k - 8) (by omega)
        simp only [hb, if_true, UInt8.toNat_zero, Nat.zero_mul, Nat.zero_add, hexp, ← hiff]
        omega
      · -- a set bit in the first byte puts the value at or above the next byte's unit
        have hlz := leadingZerosOfByte_lt hb
        have hpos : 1 ≤ byte.toNat := by
          apply Nat.one_le_iff_ne_zero.mpr
          intro h0
          exact hb (UInt8.toNat.inj h0)
        have hle : 2 ^ (8 * (rest.length + 1) - k) ≤ 256 ^ rest.length := by
          rw [← two_pow_mul_eight]
          exact Nat.pow_le_pow_right (by omega) (by omega)
        have hge : 256 ^ rest.length ≤ byte.toNat * 256 ^ rest.length := Nat.le_mul_of_pos_left _ hpos
        simp only [hb, if_false]
        constructor <;> intro h <;> omega

/-! ## The target -/

theorem powMeetsDifficulty_iff (hash : Hash256) (difficulty : UInt32) :
    powMeetsDifficulty hash difficulty = true ↔
      difficulty.toNat ≤ 256 ∧ beNat hash.1 < 2 ^ (256 - difficulty.toNat) := by
  have hlen := countLeadingZeros_le hash.1
  have hiff := le_countLeadingZeros_iff hash.1 (k := difficulty.toNat)
  rw [hash.2] at hlen hiff
  have hcount : (countLeadingZeroBits hash).toNat = countLeadingZeros hash.1 := by
    simp only [countLeadingZeroBits, UInt32.toNat_ofNat']
    omega
  have hmax : difficulty > 256 ↔ ¬ difficulty.toNat ≤ 256 := by
    rw [gt_iff_lt, UInt32.lt_iff_toNat_lt, Nat.not_le]
    rfl
  by_cases hd : difficulty.toNat ≤ 256
  · rw [powMeetsDifficulty, if_neg (by rw [hmax]; simpa using hd), decide_eq_true_iff, ge_iff_le,
      UInt32.le_iff_toNat_le, hcount, hiff hd]
    simp [hd]
  · simp [powMeetsDifficulty, hmax, hd]

theorem powMeetsDifficulty_mono {hash : Hash256} {difficulty lower : UInt32} (hle : lower ≤ difficulty)
    (h : powMeetsDifficulty hash difficulty = true) : powMeetsDifficulty hash lower = true := by
  have hle' := UInt32.le_iff_toNat_le.mp hle
  rw [powMeetsDifficulty_iff] at h ⊢
  constructor
  · omega
  · apply h.2.trans_le
    exact Nat.pow_le_pow_right (by omega) (by omega)

theorem card_powMeetsDifficulty {difficulty : UInt32} (h : difficulty.toNat ≤ 256) :
    Nat.card { hash : Hash256 // powMeetsDifficulty hash difficulty = true } =
      2 ^ (256 - difficulty.toNat) := by
  have hbound : 2 ^ (256 - difficulty.toNat) ≤ 256 ^ 32 := by
    rw [← two_pow_mul_eight]
    exact Nat.pow_le_pow_right (by omega) (by omega)
  rw [← card_beNat_lt hbound]
  apply Nat.card_congr
  apply Equiv.subtypeEquivRight
  intro hash
  rw [powMeetsDifficulty_iff]
  simp [h]

/-- The expected number of attempts per qualifying hash is the work that
`block_work` adds: the works times the number of qualifying hashes is `2 ^ 256`. -/
theorem pow_target :
    (∀ (hash : Hash256) (difficulty : UInt32), powMeetsDifficulty hash difficulty = true ↔
      difficulty.toNat ≤ 256 ∧ beNat hash.1 < 2 ^ (256 - difficulty.toNat)) ∧
    (∀ (hash : Hash256) (difficulty lower : UInt32), lower ≤ difficulty →
      powMeetsDifficulty hash difficulty = true → powMeetsDifficulty hash lower = true) ∧
    (∀ difficulty : UInt32, difficulty.toNat ≤ 256 →
      Nat.card { hash : Hash256 // powMeetsDifficulty hash difficulty = true } =
        2 ^ (256 - difficulty.toNat)) ∧
    ∀ block : Block, block.header.difficulty.toNat ≤ 256 → ∃ work : ChainWork, blockWork block = .ok work ∧
      work.toNat * Nat.card { hash : Hash256 // powMeetsDifficulty hash block.header.difficulty = true } =
        2 ^ 256 := by
  refine ⟨powMeetsDifficulty_iff, fun _ _ _ => powMeetsDifficulty_mono, fun _ => card_powMeetsDifficulty, ?_⟩
  intro block hd
  obtain ⟨work, hwork, hval⟩ := blockWork_ok hd
  refine ⟨work, hwork, ?_⟩
  rw [hval, card_powMeetsDifficulty hd, ← Nat.pow_add, Nat.add_sub_cancel' hd]

end Caesar
