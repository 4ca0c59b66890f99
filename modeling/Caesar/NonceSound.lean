import Caesar.Mempool
import Caesar.SupplySound

/-!
# The nonce search

`mine_pow` tries the nonces from the start upwards and stops in front of `2 ^ 64`
instead of wrapping. It finds the least nonce that meets the difficulty, so what
`BlockBuilder::mine` returns always validates: the header it hashes has nonce `0`,
whatever nonce the block has.
-/

namespace Caesar

open Codec

/-! ## The first hit of an interval -/

section
variable {p : ℕ → Prop} {lo hi : ℕ}

theorem isLeast_first (h : lo < hi) (hp : p lo) : IsLeast {n ∈ Set.Ico lo hi | p n} lo :=
  ⟨⟨⟨le_rfl, h⟩, hp⟩, fun _ hn => hn.1.1⟩

theorem sep_Ico_succ (hp : ¬ p lo) : {n ∈ Set.Ico lo hi | p n} = {n ∈ Set.Ico (lo + 1) hi | p n} := by
  ext n
  constructor
  · intro ⟨hn, hpn⟩
    have hne : n ≠ lo := fun h => hp (h ▸ hpn)
    exact ⟨⟨lt_of_le_of_ne hn.1 hne.symm, hn.2⟩, hpn⟩
  · intro ⟨hn, hpn⟩
    exact ⟨⟨(Nat.le_succ lo).trans hn.1, hn.2⟩, hpn⟩

theorem not_isLeast_of_le {n : ℕ} (h : hi ≤ lo) : ¬ IsLeast {n ∈ Set.Ico lo hi | p n} n :=
  fun hleast => absurd (hleast.1.1.1.trans_lt hleast.1.1.2) (Nat.not_lt.mpr h)

end

/-! ## The search -/

def Meets (K : Crypto) (header : Bytes) (difficulty : UInt32) (n : ℕ) : Prop :=
  validatePow K header (UInt64.ofNat n) difficulty = true

/-- The nonces from `lo` to below `hi` that meet the difficulty. -/
def goodNonces (K : Crypto) (header : Bytes) (difficulty : UInt32) (lo hi : ℕ) : Set ℕ :=
  {n ∈ Set.Ico lo hi | Meets K header difficulty n}

section
variable {K : Crypto} {header : Bytes} {difficulty : UInt32} {start : UInt64}

theorem goodNonces_mem {lo hi : ℕ} {nonce : UInt64} :
    nonce.toNat ∈ goodNonces K header difficulty lo hi ↔
      (lo ≤ nonce.toNat ∧ nonce.toNat < hi) ∧ validatePow K header nonce difficulty = true := by
  simp [goodNonces, Meets]

-- By induction on the attempts left. `i` does not wrap, since with what is left it
-- makes the limit, a 64-bit number.
theorem minePowLoop_eq_some {nonce : UInt64} {hash : Hash256} : ∀ {attempts : ℕ} {i : UInt64}, i.toNat + attempts < 2 ^ 64 →
    (minePowLoop K header difficulty start attempts i = some (nonce, hash) ↔
      hash = calculatePowHash K header nonce ∧
      IsLeast (goodNonces K header difficulty (start.toNat + i.toNat)
        (min (start.toNat + i.toNat + attempts) (2 ^ 64))) nonce.toNat)
  | 0, i, _ => by
    have hnone := not_isLeast_of_le (p := Meets K header difficulty) (n := nonce.toNat)
      (min_le_left (start.toNat + i.toNat) (2 ^ 64))
    exact iff_of_false (by simp [minePowLoop]) fun hleast => hnone hleast.2
  | attempts + 1, i, h => by
    have hend : start > uint64Max - i ↔ 2 ^ 64 ≤ start.toNat + i.toNat := by rw [overflows_iff, Nat.add_comm]
    unfold minePowLoop
    by_cases hwrap : start > uint64Max - i
    · have hnone := not_isLeast_of_le (p := Meets K header difficulty) (n := nonce.toNat)
        ((min_le_right (start.toNat + i.toNat + (attempts + 1)) _).trans (hend.mp hwrap))
      rw [if_pos hwrap]
      exact iff_of_false (by simp) fun hleast => hnone hleast.2
    · have hroom := hend.not.mp hwrap
      have hnext : (start + i).toNat = start.toNat + i.toNat := by
        rw [UInt64.toNat_add, Nat.mod_eq_of_lt (Nat.lt_of_not_le hroom)]
      have hof : UInt64.ofNat (start.toNat + i.toNat) = start + i := by
        rw [← hnext, UInt64.ofNat_toNat]
      rw [if_neg hwrap]
      dsimp only
      by_cases hmeets : powMeetsDifficulty (calculatePowHash K header (start + i)) difficulty = true
      · have hfirst : IsLeast (goodNonces K header difficulty (start.toNat + i.toNat)
            (min (start.toNat + i.toNat + (attempts + 1)) (2 ^ 64))) (start + i).toNat := by
          rw [hnext]
          exact isLeast_first (lt_min (by simp) (Nat.lt_of_not_le hroom)) (by rw [Meets, hof]; exact hmeets)
        rw [if_pos hmeets, Option.some.injEq, Prod.mk.injEq]
        constructor
        · rintro ⟨rfl, rfl⟩
          exact ⟨rfl, hfirst⟩
        · rintro ⟨rfl, hleast⟩
          have hsame := UInt64.toNat_inj.mp (hfirst.unique hleast)
          rw [hsame]
          exact ⟨rfl, rfl⟩
      · have hi : (i + 1).toNat = i.toNat + 1 := by
          rw [UInt64.toNat_add, UInt64.toNat_one, Nat.mod_eq_of_lt (by omega)]
        have hskip : ¬ Meets K header difficulty (start.toNat + i.toNat) := by
          rw [Meets, hof]
          exact hmeets
        rw [if_neg hmeets, minePowLoop_eq_some (by omega), hi, goodNonces, goodNonces, sep_Ico_succ hskip, ← Nat.add_assoc,
          Nat.add_right_comm _ 1 attempts]
        rfl

theorem minePow_eq_some {attempts nonce : UInt64} {hash : Hash256} :
    minePow K header difficulty start attempts = some (nonce, hash) ↔
      difficulty ≤ 256 ∧ hash = calculatePowHash K header nonce ∧
      IsLeast (goodNonces K header difficulty start.toNat (min (start.toNat + attempts.toNat) (2 ^ 64))) nonce.toNat := by
  unfold minePow
  by_cases hd : difficulty > 256
  · rw [if_pos hd]
    simp [UInt32.not_le.mpr hd]
  · rw [if_neg hd, minePowLoop_eq_some (by simpa using attempts.toNat_lt)]
    simp [UInt32.not_lt.mp hd]

theorem minePow_isSome {attempts : UInt64} :
    (minePow K header difficulty start attempts).isSome = true ↔
      difficulty ≤ 256 ∧ ∃ nonce : UInt64, start.toNat ≤ nonce.toNat ∧
        nonce.toNat < min (start.toNat + attempts.toNat) (2 ^ 64) ∧ validatePow K header nonce difficulty = true := by
  constructor
  · intro h
    obtain ⟨⟨nonce, hash⟩, hfound⟩ := Option.isSome_iff_exists.mp h
    obtain ⟨hd, -, hleast⟩ := minePow_eq_some.mp hfound
    obtain ⟨⟨hlo, hhi⟩, hmeets⟩ := goodNonces_mem.mp hleast.1
    exact ⟨hd, nonce, hlo, hhi, hmeets⟩
  · intro ⟨hd, nonce, hlo, hhi, hmeets⟩
    classical
    -- the least good nonce is a 64-bit number, as the interval ends at `2 ^ 64`
    have hleast := Nat.isLeast_find ⟨_, goodNonces_mem.mpr ⟨⟨hlo, hhi⟩, hmeets⟩⟩
    have hfits := hleast.1.1.2.trans_le (min_le_right _ _)
    rw [← UInt64.toNat_ofNat_of_lt' hfits] at hleast
    exact Option.isSome_of_eq_some (minePow_eq_some.mpr ⟨hd, rfl, hleast⟩)

end

/-! ## Mining a block -/

def Block.withNonce (block : Block) (nonce : UInt64) : Block :=
  { block with header := { block.header with nonce := nonce } }

section
variable {K : Crypto} {block : Block} {start attempts : UInt64}

theorem powHeader_withNonce {nonce : UInt64} : (block.withNonce nonce).powHeader = block.powHeader := rfl

theorem mineBlock_eq : mineBlock K block start attempts =
    .ok ((minePow K block.powHeader block.header.difficulty start attempts).map fun found => block.withNonce found.1) := by
  unfold mineBlock
  by_cases hd : block.header.difficulty > 256
  · simp [minePow, hd]
  · rw [if_neg hd]
    cases hfound : minePow K block.powHeader block.header.difficulty start attempts with
    | none => rfl
    | some found =>
      obtain ⟨-, hhash, hleast⟩ := minePow_eq_some.mp hfound
      have hmeets : (block.withNonce found.1).validatePow K = true := (goodNonces_mem.mp hleast.1).2
      have hsame : (block.withNonce found.1).powHash K = found.2 := hhash.symm
      change (if (block.withNonce found.1).powHash K ≠ found.2 then fail _
        else .ok (if (block.withNonce found.1).validatePow K then some (block.withNonce found.1) else none)) = _
      rw [if_neg (not_not.mpr hsame), if_pos hmeets]
      rfl

-- The nonces tried are `start, start + 1, …`, as many as the attempts but none past
-- `2 ^ 64 - 1`.
theorem nonce_search_finds_least (header : Bytes) (difficulty : UInt32) (start attempts : UInt64) :
    (∀ nonce hash, minePow K header difficulty start attempts = some (nonce, hash) ↔
      difficulty ≤ 256 ∧ hash = calculatePowHash K header nonce ∧
      IsLeast (goodNonces K header difficulty start.toNat (min (start.toNat + attempts.toNat) (2 ^ 64))) nonce.toNat) ∧
    ((minePow K header difficulty start attempts).isSome = true ↔
      difficulty ≤ 256 ∧ ∃ nonce : UInt64, start.toNat ≤ nonce.toNat ∧
        nonce.toNat < min (start.toNat + attempts.toNat) (2 ^ 64) ∧ validatePow K header nonce difficulty = true) ∧
    (∀ block : Block, (∀ nonce, (block.withNonce nonce).powHeader = block.powHeader) ∧
      ∃ result, mineBlock K block start attempts = .ok result ∧
      (result.isSome = true ↔ (minePow K block.powHeader block.header.difficulty start attempts).isSome = true) ∧
      ∀ mined, result = some mined → mined.validatePow K = true ∧
        mined = block.withNonce mined.header.nonce ∧
        minePow K block.powHeader block.header.difficulty start attempts = some (mined.header.nonce, mined.powHash K)) := by
  refine ⟨fun _ _ => minePow_eq_some, minePow_isSome, fun block => ⟨fun _ => powHeader_withNonce, _, mineBlock_eq, by simp, ?_⟩⟩
  intro mined h
  obtain ⟨⟨nonce, hash⟩, hfound, rfl⟩ := Option.map_eq_some_iff.mp h
  obtain ⟨-, rfl, hleast⟩ := minePow_eq_some.mp hfound
  exact ⟨(goodNonces_mem.mp hleast.1).2, rfl, hfound⟩

end

-- Started at the last nonce, the search makes one of its five attempts and does not go on at `0`.
theorem nonce_search_finds_least_last :
    minePow toyCrypto toyGenesis.powHeader 20 uint64Max 5 =
      some (uint64Max, calculatePowHash toyCrypto toyGenesis.powHeader uint64Max) := by
  have hmeets : Meets toyCrypto toyGenesis.powHeader 20 uint64Max.toNat := by
    unfold Meets
    decide +kernel
  have hleast : IsLeast (goodNonces toyCrypto toyGenesis.powHeader 20 uint64Max.toNat (min (uint64Max.toNat + 5) (2 ^ 64)))
      uint64Max.toNat := isLeast_first (by decide) hmeets
  exact ((nonce_search_finds_least toyGenesis.powHeader 20 uint64Max 5).1 _ _).mpr ⟨by decide, rfl, hleast⟩

end Caesar
