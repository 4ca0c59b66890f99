import Caesar.Lib.OrderStat
import Caesar.WorkSound

/-!
# Difficulty

One adjustment is a function of the median interval alone (`adjust_toNat`), falling
in it and never further than two steps from the difficulty before. Along an accepted
chain the difficulty is therefore bounded by its position (`Replay.difficulty`),
whatever the timestamps.
-/

namespace Caesar

/-! ## The two loops -/

theorem ease_iff (observed : UInt64) (next : UInt32) :
    observed ≥ czrTargetBlockTime * 2 ∧ next > czrMinDifficulty ↔ 240 ≤ observed.toNat ∧ 8 < next.toNat := by
  rw [ge_iff_le, UInt64.le_iff_toNat_le, gt_iff_lt, UInt32.lt_iff_toNat_lt]
  rfl

theorem harden_iff {observed : UInt64} (h : observed.toNat ≤ 120) (next : UInt32) :
    observed * 2 ≤ czrTargetBlockTime ∧ next < czrMaxDifficulty ↔ observed.toNat ≤ 60 ∧ next.toNat < 256 := by
  rw [UInt64.le_iff_toNat_le, UInt32.lt_iff_toNat_lt, UInt64.toNat_mul]
  have htwo : (2 : UInt64).toNat = 2 := rfl
  have htarget : czrTargetBlockTime.toNat = 120 := rfl
  have hmax : czrMaxDifficulty.toNat = 256 := rfl
  rw [htwo, htarget, hmax]
  omega

theorem easeLoop_stop {observed : UInt64} {next : UInt32} (h : ¬ (240 ≤ observed.toNat ∧ 8 < next.toNat)) (fuel : Nat) :
    easeLoop fuel observed next = next := by
  cases fuel with
  | zero => rfl
  | succ fuel => rw [easeLoop, if_neg (by rwa [ease_iff])]

theorem easeLoop_turn {observed : UInt64} {next : UInt32} (h : 240 ≤ observed.toNat ∧ 8 < next.toNat) (fuel : Nat) :
    easeLoop (fuel + 1) observed next = easeLoop fuel (observed / 2) (next - 1) ∧
      (observed / 2).toNat = observed.toNat / 2 ∧ (next - 1).toNat = next.toNat - 1 := by
  refine ⟨by rw [easeLoop, if_pos (by rwa [ease_iff])], UInt64.toNat_div _ _, ?_⟩
  have hone : (1 : UInt32).toNat = 1 := rfl
  rw [UInt32.toNat_sub_of_le _ _ (UInt32.le_iff_toNat_le.mpr (by omega)), hone]

theorem hardenLoop_stop {observed : UInt64} {next : UInt32} (hle : observed.toNat ≤ 120)
    (h : ¬ (observed.toNat ≤ 60 ∧ next.toNat < 256)) (fuel : Nat) : hardenLoop fuel observed next = next := by
  cases fuel with
  | zero => rfl
  | succ fuel => rw [hardenLoop, if_neg (by rwa [harden_iff hle])]

theorem hardenLoop_turn {observed : UInt64} {next : UInt32} (h : observed.toNat ≤ 60 ∧ next.toNat < 256) (fuel : Nat) :
    hardenLoop (fuel + 1) observed next = hardenLoop fuel (observed * 2) (next + 1) ∧
      (observed * 2).toNat = observed.toNat * 2 ∧ (next + 1).toNat = next.toNat + 1 := by
  refine ⟨by rw [hardenLoop, if_pos (by rwa [harden_iff (by omega)])], ?_, ?_⟩
  · have htwo : (2 : UInt64).toNat = 2 := rfl
    rw [UInt64.toNat_mul, htwo]
    omega
  · have hone : (1 : UInt32).toNat = 1 := rfl
    rw [UInt32.toNat_add, hone]
    omega

/-- What the adjustment does, as a function of the median interval. -/
def retarget (difficulty observed : Nat) : Nat :=
  if 480 ≤ observed then difficulty - min 2 (difficulty - 8)
  else if 240 ≤ observed then difficulty - min 1 (difficulty - 8)
  else if observed ≤ 30 then min (difficulty + 2) 256
  else if observed ≤ 60 then min (difficulty + 1) 256
  else difficulty

theorem easeLoop_retarget {observed : UInt64} {next : UInt32} (hlo : 120 < observed.toNat) (hhi : observed.toNat ≤ 480)
    (fuel : Nat) : (easeLoop (fuel + 2) observed next).toNat = retarget next.toNat observed.toNat := by
  unfold retarget
  by_cases hone : 240 ≤ observed.toNat ∧ 8 < next.toNat
  · obtain ⟨hturn, hobserved, hnext⟩ := easeLoop_turn hone (fuel + 1)
    rw [hturn]
    by_cases htwo : 240 ≤ (observed / 2).toNat ∧ 8 < (next - 1).toNat
    · obtain ⟨hturn', hobserved', hnext'⟩ := easeLoop_turn htwo fuel
      rw [hturn', easeLoop_stop (by omega), hnext', hnext]
      split_ifs <;> omega
    · rw [easeLoop_stop htwo, hnext]
      split_ifs <;> omega
  · rw [easeLoop_stop hone]
    split_ifs <;> omega

theorem hardenLoop_retarget {observed : UInt64} {next : UInt32} (hlo : 30 ≤ observed.toNat)
    (hhi : observed.toNat < 120) (hnext : next.toNat ≤ 256) (fuel : Nat) :
    (hardenLoop (fuel + 2) observed next).toNat = retarget next.toNat observed.toNat := by
  unfold retarget
  by_cases hone : observed.toNat ≤ 60 ∧ next.toNat < 256
  · obtain ⟨hturn, hobserved, hnext⟩ := hardenLoop_turn hone (fuel + 1)
    rw [hturn]
    by_cases htwo : (observed * 2).toNat ≤ 60 ∧ (next + 1).toNat < 256
    · obtain ⟨hturn', hobserved', hnext'⟩ := hardenLoop_turn htwo fuel
      rw [hturn', hardenLoop_stop (by omega) (by omega), hnext', hnext]
      split_ifs <;> omega
    · rw [hardenLoop_stop (by omega) htwo, hnext]
      split_ifs <;> omega
  · rw [hardenLoop_stop (by omega) hone]
    split_ifs <;> omega

/-! ## The median -/

/-- The middle one of the eleven intervals. -/
def medianInterval (intervals : List UInt64) : Nat := OrderStat.rank 0 (intervals.map UInt64.toNat) 5

theorem difficultyMedianInterval_toNat {intervals : List UInt64} (h : intervals.length = czrDifficultyWindow) :
    (difficultyMedianInterval intervals).toNat = medianInterval intervals := by
  unfold difficultyMedianInterval medianInterval OrderStat.rank
  have hsort := List.map_insertionSort (· ≤ ·) (· ≤ ·) UInt64.toNat intervals
    fun a _ b _ => UInt64.le_iff_toNat_le
  have hmiddle : czrDifficultyWindow / 2 = 5 := rfl
  rw [if_neg (by simp [h]), ← hsort, h, hmiddle, ← UInt64.toNat_zero, List.getD_map]

theorem clamp_toNat (observed : UInt64) :
    (max (czrTargetBlockTime / 4) (min (if observed = 0 then 1 else observed) (czrTargetBlockTime * 4))).toNat =
      max 30 (min observed.toNat 480) := by
  have hmin : ∀ a b : UInt64, (min a b).toNat = min a.toNat b.toNat := by
    intro a b
    by_cases h : a ≤ b
    · rw [show min a b = a from if_pos h, Nat.min_eq_left (UInt64.le_iff_toNat_le.mp h)]
    · rw [show min a b = b from if_neg h]
      rw [UInt64.le_iff_toNat_le] at h
      omega
  have hmax : ∀ a b : UInt64, (max a b).toNat = max a.toNat b.toNat := by
    intro a b
    by_cases h : a ≤ b
    · rw [show max a b = b from if_pos h, Nat.max_eq_right (UInt64.le_iff_toNat_le.mp h)]
    · rw [show max a b = a from if_neg h]
      rw [UInt64.le_iff_toNat_le] at h
      omega
  have hlow : (czrTargetBlockTime / 4).toNat = 30 := rfl
  have hhigh : (czrTargetBlockTime * 4).toNat = 480 := rfl
  rw [hmax, hmin, hlow, hhigh]
  by_cases hzero : observed = 0
  · rw [if_pos hzero, hzero]
    rfl
  · rw [if_neg hzero]

theorem retarget_clamp (difficulty observed : Nat) :
    retarget difficulty (max 30 (min observed 480)) = retarget difficulty observed := by
  unfold retarget
  split_ifs <;> omega

theorem adjust_toNat {difficulty : UInt32} {intervals : List UInt64} (hd : difficulty.toNat ≤ 256)
    (h : intervals.length = czrDifficultyWindow) :
    (adjustDifficultyWindow difficulty intervals).toNat = retarget difficulty.toNat (medianInterval intervals) := by
  have hmax : ¬ difficulty > czrMaxDifficulty := by
    rw [gt_iff_lt, UInt32.lt_iff_toNat_lt]
    exact Nat.not_lt.mpr hd
  have hclamp := clamp_toNat (difficultyMedianInterval intervals)
  unfold adjustDifficultyWindow
  rw [if_neg (by simp [hmax, h]), ← difficultyMedianInterval_toNat h, ← retarget_clamp, ← hclamp]
  dsimp only
  generalize max (czrTargetBlockTime / 4) _ = observed at hclamp ⊢
  have htarget : czrTargetBlockTime.toNat = 120 := rfl
  simp only [gt_iff_lt, UInt64.lt_iff_toNat_lt, htarget]
  by_cases hslow : 120 < observed.toNat
  · rw [if_pos hslow, easeLoop_retarget hslow (by omega)]
  · by_cases hfast : observed.toNat < 120
    · rw [if_neg hslow, if_pos hfast, hardenLoop_retarget (by omega) hfast hd]
    · rw [if_neg hslow, if_neg hfast]
      unfold retarget
      split_ifs <;> omega

/-! ## Retargeting -/

section
variable {difficulty : Nat}

theorem retarget_antitone (hd : difficulty ≤ 256) {observed observed' : Nat} (h : observed ≤ observed') :
    retarget difficulty observed' ≤ retarget difficulty observed := by
  unfold retarget
  split_ifs <;> omega

theorem retarget_range (hlo : 8 ≤ difficulty) (hhi : difficulty ≤ 256) (observed : Nat) :
    8 ≤ retarget difficulty observed ∧ retarget difficulty observed ≤ 256 := by
  unfold retarget
  split_ifs <;> omega

theorem retarget_near (hhi : difficulty ≤ 256) (observed : Nat) :
    retarget difficulty observed ≤ difficulty + 2 ∧ difficulty ≤ retarget difficulty observed + 2 := by
  unfold retarget
  split_ifs <;> omega

end

theorem medianInterval_mono {xs ys : List UInt64} (hxs : xs.length = czrDifficultyWindow)
    (h : List.Forall₂ (· ≤ ·) xs ys) : medianInterval xs ≤ medianInterval ys := by
  apply OrderStat.rank_mono
  · rw [List.forall₂_map_left_iff, List.forall₂_map_right_iff]
    exact h.imp fun a b => UInt64.le_iff_toNat_le.mp
  · rw [List.length_map, hxs]
    decide

theorem medianInterval_perm {xs ys : List UInt64} (h : xs.Perm ys) : medianInterval xs = medianInterval ys :=
  OrderStat.rank_perm (h.map _)

theorem medianInterval_replicate (x : UInt64) : medianInterval (List.replicate czrDifficultyWindow x) = x.toNat := by
  unfold medianInterval
  rw [List.map_replicate]
  exact OrderStat.rank_replicate (by decide)

/-- Six of the eleven intervals hold the median between their extremes. -/
theorem medianInterval_robust {xs six : List UInt64} {lo hi : UInt64} (hxs : xs.length = czrDifficultyWindow)
    (hsub : six.Sublist xs) (hsix : six.length = 6) (hlo : ∀ x ∈ six, lo ≤ x) (hhi : ∀ x ∈ six, x ≤ hi) :
    lo.toNat ≤ medianInterval xs ∧ medianInterval xs ≤ hi.toNat := by
  have hwindow : czrDifficultyWindow = 11 := rfl
  constructor
  · apply OrderStat.le_rank_of_sublist (hsub.map UInt64.toNat)
    · rw [List.length_map]
      omega
    · rw [List.length_map, List.length_map]
      omega
    · intro n hn
      obtain ⟨x, hx, rfl⟩ := List.mem_map.mp hn
      exact UInt64.le_iff_toNat_le.mp (hlo x hx)
  · apply OrderStat.rank_le_of_sublist (hsub.map UInt64.toNat)
    · rw [List.length_map]
      omega
    · intro n hn
      obtain ⟨x, hx, rfl⟩ := List.mem_map.mp hn
      exact UInt64.le_iff_toNat_le.mp (hhi x hx)

theorem retargeting_monotone {difficulty : UInt32} (hmin : czrMinDifficulty ≤ difficulty)
    (hmax : difficulty ≤ czrMaxDifficulty) :
    (∀ xs ys : List UInt64, xs.length = 11 → ys.length = 11 → List.Forall₂ (· ≤ ·) xs ys →
      adjustDifficultyWindow difficulty ys ≤ adjustDifficultyWindow difficulty xs) ∧
    (∀ xs ys : List UInt64, xs.length = 11 → xs.Perm ys →
      adjustDifficultyWindow difficulty ys = adjustDifficultyWindow difficulty xs) ∧
    (∀ xs : List UInt64, xs.length = 11 →
      czrMinDifficulty ≤ adjustDifficultyWindow difficulty xs ∧
      adjustDifficultyWindow difficulty xs ≤ czrMaxDifficulty ∧
      (adjustDifficultyWindow difficulty xs).toNat ≤ difficulty.toNat + 2 ∧
      difficulty.toNat ≤ (adjustDifficultyWindow difficulty xs).toNat + 2) ∧
    ∀ (xs six : List UInt64) (lo hi : UInt64), xs.length = 11 → six.Sublist xs → six.length = 6 →
      IsLeast {x | x ∈ six} lo → IsGreatest {x | x ∈ six} hi →
      adjustDifficultyWindow difficulty (List.replicate 11 hi) ≤ adjustDifficultyWindow difficulty xs ∧
      adjustDifficultyWindow difficulty xs ≤ adjustDifficultyWindow difficulty (List.replicate 11 lo) := by
  have hlo : 8 ≤ difficulty.toNat := UInt32.le_iff_toNat_le.mp hmin
  have hhi : difficulty.toNat ≤ 256 := UInt32.le_iff_toNat_le.mp hmax
  refine ⟨?_, ?_, ?_, ?_⟩
  · intro xs ys hxs hys h
    rw [UInt32.le_iff_toNat_le, adjust_toNat hhi hxs, adjust_toNat hhi hys]
    exact retarget_antitone hhi (medianInterval_mono hxs h)
  · intro xs ys hxs h
    have hys : ys.length = czrDifficultyWindow := by rw [← h.length_eq, hxs]; rfl
    apply UInt32.toNat_inj.mp
    rw [adjust_toNat hhi hxs, adjust_toNat hhi hys, medianInterval_perm h]
  · intro xs hxs
    rw [UInt32.le_iff_toNat_le, UInt32.le_iff_toNat_le, adjust_toNat hhi hxs]
    obtain ⟨habove, hbelow⟩ := retarget_range hlo hhi (medianInterval xs)
    exact ⟨habove, hbelow, retarget_near hhi _⟩
  · intro xs six lo hi hxs hsub hsix hleast hgreatest
    obtain ⟨hmlo, hmhi⟩ := medianInterval_robust hxs hsub hsix (fun x hx => hleast.2 hx) (fun x hx => hgreatest.2 hx)
    have hcopies : ∀ x : UInt64, (adjustDifficultyWindow difficulty (List.replicate 11 x)).toNat =
        retarget difficulty.toNat x.toNat := by
      intro x
      rw [adjust_toNat hhi (show (List.replicate 11 x).length = czrDifficultyWindow from List.length_replicate ..)]
      exact congrArg _ (medianInterval_replicate x)
    rw [UInt32.le_iff_toNat_le, UInt32.le_iff_toNat_le, hcopies, hcopies, adjust_toNat hhi hxs]
    exact ⟨retarget_antitone hhi hmhi, retarget_antitone hhi hmlo⟩

theorem retargeting_monotone_toy : czrMinDifficulty ≤ 12 ∧ 12 ≤ czrMaxDifficulty ∧
    adjustDifficultyWindow 12 (List.replicate 11 480) ≤ adjustDifficultyWindow 12 (List.replicate 11 30) :=
  ⟨by decide, by decide, (retargeting_monotone (by decide) (by decide)).1 _ _ (by simp) (by simp) (by simp)⟩

/-! ## Along a chain -/

theorem collectIntervals_length {chain : List Block} {is : List Nat} {intervals : List UInt64}
    (h : collectIntervals chain is = some intervals) : intervals.length = is.length := by
  induction is generalizing intervals with
  | nil =>
    rw [collectIntervals, Option.some.injEq] at h
    rw [← h]
    rfl
  | cons i is ih =>
    rw [collectIntervals] at h
    split at h
    · cases h
    · split at h
      · split at h
        · cases h
        · obtain ⟨rest, hrest, rfl⟩ := Option.map_eq_some_iff.mp h
          rw [List.length_cons, List.length_cons, ih hrest]
      · cases h

/-- The greatest difficulty a block can have at a position after the genesis. -/
def difficultyCeiling (position : Nat) : Nat :=
  if position < 12 then 12
  else if position < 19 then 12 + 2 * (position - 11)
  else if position < 30 then 13
  else if position < 40 then 13 + 2 * (position - 29)
  else 8

theorem difficultyCeiling_le (position : Nat) : difficultyCeiling position ≤ 33 := by
  unfold difficultyCeiling
  split_ifs <;> omega

theorem difficultyCeiling_early {position : Nat} (h : position < 12) : difficultyCeiling position = 12 := if_pos h

theorem difficultyCeiling_fork {position : Nat} (h : position ≥ 19 ∧ position < 19 + 11) :
    difficultyCeiling position = 13 := by
  unfold difficultyCeiling
  rw [if_neg (by omega), if_neg (by omega), if_pos (by omega)]

theorem difficultyCeiling_tail {position : Nat} (h : position ≥ 40) : difficultyCeiling position = 8 := by
  unfold difficultyCeiling
  rw [if_neg (by omega), if_neg (by omega), if_neg (by omega), if_neg (by omega)]

/-- Where the median decides there is room for two steps. -/
theorem difficultyCeiling_grows {position : Nat} (hwindow : ¬ position + 1 < 11 + 1)
    (hfork : ¬ (position + 1 ≥ 19 ∧ position + 1 < 19 + 11)) (htail : ¬ position + 1 ≥ 40) :
    difficultyCeiling position + 2 ≤ difficultyCeiling (position + 1) := by
  unfold difficultyCeiling
  split_ifs <;> omega

theorem expectedDifficulty_first {chain : List Block} {genesis : Block} (h : chain[0]? = some genesis)
    (hheight : genesis.header.height = 0) (hdifficulty : genesis.header.difficulty = 0) :
    expectedDifficultyAtPosition chain 1 = 12 := by
  have hlen := (List.getElem?_eq_some_iff.mp h).1
  unfold expectedDifficultyAtPosition
  rw [if_neg (by decide), if_neg (by decide), if_neg (by omega), Nat.sub_self, h]
  simp only [hheight, hdifficulty, and_self, ite_true]
  rfl

theorem expectedDifficulty_step {chain : List Block} {position : Nat} {previous : Block}
    (h : chain[position]? = some previous) (hlo : 8 ≤ previous.header.difficulty.toNat)
    (hhi : previous.header.difficulty.toNat ≤ difficultyCeiling position) :
    8 ≤ (expectedDifficultyAtPosition chain (position + 1)).toNat ∧
      (expectedDifficultyAtPosition chain (position + 1)).toNat ≤ difficultyCeiling (position + 1) := by
  have hlen := (List.getElem?_eq_some_iff.mp h).1
  have hmax := Nat.le_trans hhi (difficultyCeiling_le position)
  have hgenesis : ¬ (previous.header.height = 0 ∧ previous.header.difficulty = 0) := by
    rintro ⟨-, hzero⟩
    rw [hzero] at hlo
    exact absurd hlo (by decide)
  have hwindow : czrDifficultyWindow = 11 := rfl
  have hfork : czrEasyForkHeight = 19 := rfl
  unfold expectedDifficultyAtPosition
  rw [hwindow, hfork]
  by_cases hin : position + 1 ≥ 19 ∧ position + 1 < 19 + 11
  · rw [if_pos hin, difficultyCeiling_fork hin]
    decide
  rw [if_neg hin]
  by_cases htail : position + 1 ≥ 40
  · rw [if_pos htail, difficultyCeiling_tail htail]
    decide
  rw [if_neg htail, if_neg (by omega), Nat.add_sub_cancel, h]
  dsimp only
  rw [if_neg hgenesis]
  by_cases hearly : position + 1 < 11 + 1
  · rw [if_pos hearly, difficultyCeiling_early hearly]
    rw [difficultyCeiling_early (by omega)] at hhi
    exact ⟨hlo, hhi⟩
  rw [if_neg hearly]
  have hgrows := difficultyCeiling_grows hearly hin htail
  cases hintervals : collectIntervals chain (List.range' (position + 1 - 11) 11) with
  | none => exact ⟨hlo, by dsimp only; omega⟩
  | some intervals =>
    have hlength := collectIntervals_length hintervals
    rw [List.length_range'] at hlength
    have hsmall : previous.header.difficulty.toNat ≤ 256 := by omega
    have hnear := (retarget_near hsmall (medianInterval intervals)).1
    dsimp only
    rw [adjust_toNat hsmall hlength]
    exact ⟨(retarget_range hlo hsmall _).1, by omega⟩

section
variable {K : Crypto} {chain : List Block} {u : UTXOSet} {t : UInt64}

theorem Replay.genesis_difficulty (h : Replay K chain u t) :
    ∃ genesis : Block, chain[0]? = some genesis ∧ genesis.header.height = 0 ∧ genesis.header.difficulty = 0 := by
  induction h with
  | @genesis genesis hg => exact ⟨genesis, rfl, (genesis_true hg).1, (genesis_true hg).2.1⟩
  | snoc hr _ ih =>
    obtain ⟨genesis, hgenesis, hrest⟩ := ih
    refine ⟨genesis, ?_, hrest⟩
    rw [List.getElem?_append_left (List.length_pos_of_ne_nil hr.ne_nil)]
    exact hgenesis

/-- The next block keeps to the ceiling when the last block does. -/
theorem Replay.nextDifficulty_of_last (h : Replay K chain u t)
    (hlast : ∀ previous : Block, 0 < chain.length - 1 → chain[chain.length - 1]? = some previous →
      8 ≤ previous.header.difficulty.toNat ∧ previous.header.difficulty.toNat ≤ difficultyCeiling (chain.length - 1)) :
    8 ≤ (expectedNextDifficulty chain).toNat ∧ (expectedNextDifficulty chain).toNat ≤ difficultyCeiling chain.length := by
  have hpos := List.length_pos_of_ne_nil h.ne_nil
  rw [expectedNextDifficulty]
  by_cases hone : chain.length = 1
  · obtain ⟨genesis, hgenesis, hheight, hzero⟩ := h.genesis_difficulty
    rw [hone, expectedDifficulty_first hgenesis hheight hzero]
    decide
  · have hprevious := List.getElem?_eq_getElem (show chain.length - 1 < chain.length by omega)
    obtain ⟨hlo, hhi⟩ := hlast _ (by omega) hprevious
    have hstep := expectedDifficulty_step hprevious hlo hhi
    rwa [Nat.sub_add_cancel hpos] at hstep

theorem Replay.difficulty (h : Replay K chain u t) {i : Nat} {block : Block} (hi : 0 < i)
    (hblock : chain[i]? = some block) :
    8 ≤ block.header.difficulty.toNat ∧ block.header.difficulty.toNat ≤ difficultyCeiling i := by
  induction h generalizing i block with
  | genesis hg =>
    obtain ⟨hlt, -⟩ := List.getElem?_eq_some_iff.mp hblock
    rw [List.length_singleton] at hlt
    omega
  | @snoc chain last u t u' t' hr ha ih =>
    rcases Nat.lt_or_ge i chain.length with hlt | hge
    · rw [List.getElem?_append_left hlt] at hblock
      exact ih hi hblock
    · -- the new block has what is expected after the last one
      obtain ⟨hlast, hsome⟩ := List.getElem?_eq_some_iff.mp hblock
      rw [List.length_append, List.length_singleton] at hlast
      obtain rfl : i = chain.length := by omega
      have hblock' : block = last := by simpa using hsome.symm
      obtain ⟨previous, -, -, -, -, hexpected⟩ := ha.extends_
      rw [hblock', hexpected]
      exact hr.nextDifficulty_of_last fun previous hpos hprevious => ih hpos hprevious

theorem Replay.nextDifficulty (h : Replay K chain u t) :
    8 ≤ (expectedNextDifficulty chain).toNat ∧ (expectedNextDifficulty chain).toNat ≤ difficultyCeiling chain.length :=
  h.nextDifficulty_of_last fun _ hpos hprevious => h.difficulty hpos hprevious

theorem difficulty_in_range (h : validateCandidateChain K chain = .ok true) :
    (∀ (i : Nat) (block : Block), 0 < i → chain[i]? = some block →
      czrMinDifficulty ≤ block.header.difficulty ∧ block.header.difficulty ≤ czrMaxDifficulty ∧
      block.header.difficulty ≤ 33) ∧
    (∀ block ∈ chain, ∃ w, blockWork block = .ok w) ∧ ∃ w, cumulativeChainWork chain = .ok w := by
  obtain ⟨u, t, hr⟩ := candidate_iff.mp h
  refine ⟨?_, ?_, ?_⟩
  · intro i block hi hblock
    obtain ⟨hlo, hhi⟩ := hr.difficulty hi hblock
    have hceiling := Nat.le_trans hhi (difficultyCeiling_le i)
    rw [UInt32.le_iff_toNat_le, UInt32.le_iff_toNat_le, UInt32.le_iff_toNat_le]
    exact ⟨hlo, Nat.le_trans hceiling (by decide), hceiling⟩
  · intro block hb
    obtain ⟨w, hw, -⟩ := blockWork_ok (UInt32.le_iff_toNat_le.mp (hr.weighable.difficulty_le block hb))
    exact ⟨w, hw⟩
  · obtain ⟨w, hw, -⟩ := hr.cumulativeWork
    exact ⟨w, hw⟩

end

theorem difficulty_in_range_toy : validateCandidateChain toyCrypto [toyGenesis, toyFirst, toySecond] = .ok true ∧
    toySecond.header.difficulty ≤ 33 :=
  ⟨toy_accepted, ((difficulty_in_range toy_accepted).1 2 toySecond (by decide) rfl).2.2⟩

end Caesar
