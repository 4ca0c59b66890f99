import Mathlib
import Caesar.SupplySound

/-!
# The supply is never used up

The subsidy at least halves every `czrHalvingInterval` heights, so all of them
together stay within twice the first period, which is the supply. A chain of
valid coinbases therefore never meets the limit (`Minted.issued`).
-/

namespace Caesar

/-! ## The sum of the subsidies -/

/-- A rate that at least halves with each period pays out at most twice the first period. -/
theorem halving_sum_le {m : Nat} (hm : 0 < m) {f : Nat → Nat} (hf : ∀ q, 2 * f (q + 1) ≤ f q) (n : Nat) :
    ((List.range n).map fun h => f (h / m)).sum + (m - n % m) * f (n / m) + m * f (n / m) ≤ 2 * m * f 0 := by
  induction n with
  | zero =>
    simp only [List.range_zero, List.map_nil, List.sum_nil, Nat.zero_mod, Nat.zero_div, Nat.sub_zero, Nat.zero_add]
    rw [Nat.mul_assoc, Nat.two_mul]
  | succ n ih =>
    rw [List.range_succ, List.map_append, List.sum_append]
    have hlt := Nat.mod_lt n hm
    have hdiv := Nat.div_add_mod n m
    simp only [List.map_cons, List.map_nil, List.sum_cons, List.sum_nil, Nat.add_zero]
    by_cases hlast : n % m + 1 = m
    · -- the period ends, and the next one pays at most half
      have hnext : n + 1 = m * (n / m + 1) := by
        rw [Nat.mul_add, Nat.mul_one]
        omega
      have hq : (n + 1) / m = n / m + 1 := by rw [hnext, Nat.mul_div_cancel_left _ hm]
      have hr : (n + 1) % m = 0 := by rw [hnext, Nat.mul_mod_right]
      have hhalf := Nat.mul_le_mul_left m (hf (n / m))
      have hone : m - n % m = 1 := by omega
      rw [hone, Nat.one_mul] at ih
      rw [hq, hr, Nat.sub_zero]
      have hsplit : m * (2 * f (n / m + 1)) = m * f (n / m + 1) + m * f (n / m + 1) := by
        rw [Nat.mul_left_comm, Nat.two_mul]
      omega
    · have hq : (n + 1) / m = n / m := by
        rw [Nat.div_eq_of_lt_le]
        · rw [Nat.mul_comm]
          omega
        · rw [Nat.mul_comm, Nat.mul_add, Nat.mul_one]
          omega
      have hr : (n + 1) % m = n % m + 1 := by
        have h := Nat.div_add_mod (n + 1) m
        rw [hq] at h
        omega
      have hstep : (m - n % m) * f (n / m) = (m - (n % m + 1)) * f (n / m) + f (n / m) := by
        rw [show m - n % m = m - (n % m + 1) + 1 by omega, Nat.add_mul, Nat.one_mul]
      rw [hq, hr]
      omega

/-- What `blockSubsidy` pays in each period of `czrHalvingInterval` heights. -/
def subsidyRate (halvings : Nat) : Nat := czrInitialSubsidy.toNat / 2 ^ halvings

theorem subsidyRate_halves (q : Nat) : 2 * subsidyRate (q + 1) ≤ subsidyRate q := by
  unfold subsidyRate
  rw [Nat.pow_succ, ← Nat.div_div_eq_div_mul, Nat.mul_comm]
  exact Nat.div_mul_le_self _ 2

theorem blockSubsidy_le {height : Nat} (h : height < 2 ^ 64) :
    (blockSubsidy (UInt64.ofNat height)).toNat ≤ subsidyRate (height / 210000) := by
  have hheight : (UInt64.ofNat height).toNat = height := by
    rw [UInt64.toNat_ofNat', Nat.mod_eq_of_lt h]
  have hhalvings : (UInt64.ofNat height / czrHalvingInterval).toNat = height / 210000 := by
    rw [UInt64.toNat_div, hheight]
    rfl
  unfold blockSubsidy
  by_cases hzero : UInt64.ofNat height = 0
  · rw [if_pos hzero]
    exact Nat.zero_le _
  · rw [if_neg hzero]
    dsimp only
    by_cases hlate : UInt64.ofNat height / czrHalvingInterval ≥ 64
    · rw [if_pos hlate]
      exact Nat.zero_le _
    · rw [if_neg hlate]
      have hsmall : height / 210000 < 64 := by
        rw [ge_iff_le, UInt64.le_iff_toNat_le, hhalvings] at hlate
        have h64 : (64 : UInt64).toNat = 64 := rfl
        omega
      rw [UInt64.toNat_shiftRight, hhalvings, Nat.mod_eq_of_lt hsmall, Nat.shiftRight_eq_div_pow]
      exact Nat.le_refl _

theorem subsidies_le_supply {n : Nat} (h : n < 2 ^ 64) : subsidies n ≤ czrMaxSupply.toNat := by
  have hterms : subsidies n ≤ ((List.range (n + 1)).map fun h => subsidyRate (h / 210000)).sum := by
    rw [List.range_eq_range', List.range'_succ, List.map_cons, List.sum_cons, subsidies]
    refine Nat.le_trans (List.sum_le_sum ?_) (Nat.le_add_left _ _)
    intro height hheight
    obtain ⟨-, hlt⟩ := List.mem_range'_1.mp hheight
    exact blockSubsidy_le (by omega)
  have hbound := halving_sum_le (show 0 < 210000 by omega) subsidyRate_halves (n + 1)
  have hall : 2 * 210000 * subsidyRate 0 = czrMaxSupply.toNat := by decide
  omega

/-! ## Blocks at successive heights -/

/-- Blocks at the heights `1, 2, 3, …`, each with a valid coinbase in front. -/
def Minted (blocks : List Block) : Prop :=
  ∀ (i : Nat) (block : Block), blocks[i]? = some block → block.header.height.toNat = i + 1 ∧
    ∃ coinbase rest, block.transactions = coinbase :: rest ∧
      validateCoinbaseTransaction coinbase block.header.height = true

/-- The counter of `validate_and_rebuild_chain` after some blocks. -/
def issuedAfter (blocks : List Block) : Option UInt64 :=
  blocks.foldlM (fun totalIssued block => addCoinbaseIssuance block totalIssued) 0

theorem issuedAfter_snoc (before : List Block) (block : Block) :
    issuedAfter (before ++ [block]) = (issuedAfter before).bind (addCoinbaseIssuance block) := by
  unfold issuedAfter
  rw [List.foldlM_append]
  congr 1
  funext total
  simp

theorem Minted.left {before after : List Block} (h : Minted (before ++ after)) : Minted before := by
  intro i block hblock
  apply h i block
  rw [List.getElem?_append_left (List.getElem?_eq_some_iff.mp hblock).1]
  exact hblock

theorem Minted.block {before after : List Block} {block : Block} (h : Minted (before ++ block :: after)) :
    block.header.height.toNat = before.length + 1 ∧ ∃ coinbase rest, block.transactions = coinbase :: rest ∧
      validateCoinbaseTransaction coinbase block.header.height = true := by
  apply h before.length block
  simp

theorem Minted.step {before after : List Block} {block : Block} {total : UInt64}
    (h : Minted (before ++ block :: after)) (htotal : total.toNat = subsidies before.length) :
    total ≤ czrMaxSupply ∧
      ∃ next, addCoinbaseIssuance block total = some next ∧ next.toNat = subsidies (before.length + 1) := by
  obtain ⟨hheight, coinbase, rest, hb, hvalid⟩ := h.block
  obtain ⟨hcoinbase, -, output, hout, hamount, -⟩ := coinbase_true hvalid
  have hlt := block.header.height.toNat_lt
  have hroom : subsidies before.length + output.amount.toNat ≤ czrMaxSupply.toNat := by
    rw [hamount, ← UInt64.ofNat_toNat (x := block.header.height), hheight, ← subsidies_succ]
    exact subsidies_le_supply (by omega)
  have hle : total.toNat ≤ czrMaxSupply.toNat := by omega
  have hguard : ¬ output.amount > czrMaxSupply - total := by
    rw [gt_iff_lt, UInt64.lt_iff_toNat_lt, UInt64.toNat_sub_of_le _ _ (UInt64.le_iff_toNat_le.mpr hle)]
    omega
  refine ⟨UInt64.le_iff_toNat_le.mpr hle, total + output.amount, ?_, ?_⟩
  · rw [issuance_cons hb hcoinbase, hout, addIssuedOutputs, if_neg hguard, addIssuedOutputs]
  · rw [(add_within hle hguard).1, htotal, hamount, subsidies_succ, ← hheight, UInt64.ofNat_toNat]

theorem Minted.issued {blocks : List Block} (h : Minted blocks) :
    ∃ total, issuedAfter blocks = some total ∧ total.toNat = subsidies blocks.length := by
  induction blocks using List.reverseRecOn with
  | nil => exact ⟨0, rfl, rfl⟩
  | append_singleton before block ih =>
    obtain ⟨total, htotal, hsum⟩ := ih h.left
    obtain ⟨-, next, hnext, hnextsum⟩ := h.step hsum
    refine ⟨next, ?_, by rw [hnextsum, List.length_append, List.length_singleton]⟩
    rw [issuedAfter_snoc, htotal, Option.bind_some, hnext]

theorem issuance_within_supply :
    (∀ n : UInt64, subsidies n.toNat ≤ czrMaxSupply.toNat) ∧
    ∀ (before after : List Block) (block : Block), Minted (before ++ block :: after) →
      ∃ total, issuedAfter before = some total ∧ total.toNat = subsidies before.length ∧
        (czrMaxSupply - total).toNat = czrMaxSupply.toNat - total.toNat ∧ total.toNat ≤ czrMaxSupply.toNat ∧
        ∃ next, addCoinbaseIssuance block total = some next ∧ issuedAfter (before ++ [block]) = some next := by
  refine ⟨fun n => subsidies_le_supply n.toNat_lt, ?_⟩
  intro before after block h
  obtain ⟨total, htotal, hsum⟩ := h.left.issued
  obtain ⟨hle, next, hnext, -⟩ := h.step hsum
  refine ⟨total, htotal, hsum, UInt64.toNat_sub_of_le _ _ hle, UInt64.le_iff_toNat_le.mp hle, next, hnext, ?_⟩
  rw [issuedAfter_snoc, htotal, Option.bind_some, hnext]

theorem issuance_within_supply_toy : Minted ([toyFirst] ++ toySecond :: []) ∧
    ∃ total next, issuedAfter [toyFirst] = some total ∧ addCoinbaseIssuance toySecond total = some next := by
  have hminted : Minted ([toyFirst] ++ toySecond :: []) := by
    intro i block hblock
    rcases i with _ | _ | i
    · obtain rfl : toyFirst = block := by simpa using hblock
      exact ⟨by decide +kernel, _, _, rfl, by decide +kernel⟩
    · obtain rfl : toySecond = block := by simpa using hblock
      exact ⟨by decide +kernel, _, _, rfl, by decide +kernel⟩
    · simp at hblock
  obtain ⟨total, htotal, -, -, -, next, hnext, -⟩ := issuance_within_supply.2 _ _ _ hminted
  exact ⟨hminted, total, next, htotal, hnext⟩

end Caesar
