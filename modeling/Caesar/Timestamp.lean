import Caesar.Block
import Caesar.Lib.OrderStat

/-!
# Median time past

The clock a chain keeps for itself: the upper median of its last eleven
timestamps. A block that passes the canonical rule is above it, so it never goes
back (`computeMedianTimePast_snoc`).
-/

namespace Caesar

def czrMaxFutureDrift : UInt64 := 2 * 60 * 60

def czrMedianTimeWindow : Nat := 11

def medianOfTimestamps (values : List UInt64) : UInt64 :=
  if values.isEmpty then 0 else (values.insertionSort (· ≤ ·)).getD (values.length / 2) 0

/-- The timestamps sampled: the last `sample_size` of the chain. -/
def medianTimeSample (chain : List Block) : List UInt64 :=
  let sampleSize := min chain.length czrMedianTimeWindow
  let start := chain.length - sampleSize
  (chain.drop start).map (·.header.timestamp)

def computeMedianTimePast (chain : List Block) : UInt64 :=
  if chain.isEmpty then 0 else medianOfTimestamps (medianTimeSample chain)

/-- The sum is 64-bit and wraps for a clock at the end of time. -/
def maximumAllowedTimestamp (now : UInt64) : UInt64 := now + czrMaxFutureDrift

def validateBlockTimestampCanonical (block : Block) (chain : List Block) (now : UInt64) : Bool :=
  if block.header.timestamp > maximumAllowedTimestamp now then false
  else if ¬ chain.isEmpty ∧ block.header.timestamp ≤ computeMedianTimePast chain then false
  else true

/-! ## The sample of an extended chain -/

theorem medianTimeSample_length (chain : List Block) :
    (medianTimeSample chain).length = min chain.length czrMedianTimeWindow := by
  simp only [medianTimeSample, List.length_map, List.length_drop]
  omega

/-- The window slides: the new timestamp is added, and a full window loses its oldest. -/
theorem medianTimeSample_snoc (chain : List Block) (block : Block) :
    ∃ kept : List UInt64, kept.Sublist (medianTimeSample chain) ∧
      medianTimeSample (chain ++ [block]) = kept ++ [block.header.timestamp] := by
  have hwindow : czrMedianTimeWindow = 11 := rfl
  have hlen : (chain ++ [block]).length = chain.length + 1 := by simp
  have hstart : (chain ++ [block]).length - min (chain ++ [block]).length czrMedianTimeWindow ≤ chain.length := by
    omega
  have hlater : chain.length - min chain.length czrMedianTimeWindow ≤
      (chain ++ [block]).length - min (chain ++ [block]).length czrMedianTimeWindow := by
    omega
  refine ⟨(chain.drop ((chain ++ [block]).length - min (chain ++ [block]).length czrMedianTimeWindow)).map
    (·.header.timestamp), ?_, ?_⟩
  · apply List.Sublist.map
    exact List.drop_sublist_drop_left chain hlater
  · simp only [medianTimeSample, List.drop_append_of_le_length hstart, List.map_append, List.map_cons, List.map_nil]

/-! ## The median as an order statistic -/

def timestampValues (chain : List Block) : List Nat := (medianTimeSample chain).map UInt64.toNat

theorem computeMedianTimePast_toNat {chain : List Block} (h : chain ≠ []) :
    (computeMedianTimePast chain).toNat =
      OrderStat.rank 0 (timestampValues chain) (min chain.length czrMedianTimeWindow / 2) := by
  have hlen := medianTimeSample_length chain
  have hpos : 0 < chain.length := List.length_pos_iff.mpr h
  have hsample : medianTimeSample chain ≠ [] := by
    intro hnil
    rw [hnil, List.length_nil, show czrMedianTimeWindow = 11 from rfl] at hlen
    omega
  have hsort := List.map_insertionSort (· ≤ ·) (· ≤ ·) UInt64.toNat (medianTimeSample chain)
    fun a _ b _ => UInt64.le_iff_toNat_le
  unfold computeMedianTimePast medianOfTimestamps timestampValues OrderStat.rank
  rw [if_neg (by simpa using h), if_neg (by simpa using hsample), hlen, ← hsort, ← UInt64.toNat_zero,
    List.getD_map]

theorem validateBlockTimestampCanonical_gt {block : Block} {chain : List Block} {now : UInt64} (hne : chain ≠ [])
    (h : validateBlockTimestampCanonical block chain now = true) :
    computeMedianTimePast chain < block.header.timestamp := by
  unfold validateBlockTimestampCanonical at h
  split at h
  · simp at h
  · split at h
    · simp at h
    · rename_i hfloor
      have hnot : ¬ block.header.timestamp ≤ computeMedianTimePast chain := fun hle =>
        hfloor ⟨by simpa using hne, hle⟩
      exact UInt64.not_le.mp hnot

theorem computeMedianTimePast_snoc {block : Block} {chain : List Block} {now : UInt64} (hne : chain ≠ [])
    (h : validateBlockTimestampCanonical block chain now = true) :
    computeMedianTimePast chain ≤ computeMedianTimePast (chain ++ [block]) := by
  have hgt := UInt64.lt_iff_toNat_lt.mp (validateBlockTimestampCanonical_gt hne h)
  have hlen := medianTimeSample_length chain
  have hlen' := medianTimeSample_length (chain ++ [block])
  have hwindow : czrMedianTimeWindow = 11 := rfl
  have hpos : 0 < chain.length := List.length_pos_iff.mpr hne
  obtain ⟨kept, hsub, hsample⟩ := medianTimeSample_snoc chain block
  have hvalues : timestampValues (chain ++ [block]) = kept.map UInt64.toNat ++ [block.header.timestamp.toNat] := by
    rw [timestampValues, hsample, List.map_append, List.map_cons, List.map_nil]
  have hne' : chain ++ [block] ≠ [] := by simp
  rw [computeMedianTimePast_toNat hne] at hgt
  rw [UInt64.le_iff_toNat_le, computeMedianTimePast_toNat hne, computeMedianTimePast_toNat hne', hvalues]
  apply OrderStat.rank_le_rank_append
  · rw [timestampValues, List.length_map, hlen]
    omega
  · exact hsub.map _
  · exact hgt.le
  · rw [List.length_append]
    omega
  · rw [← hvalues, timestampValues, List.length_map, hlen']
    rw [List.length_append]
    omega

/-! ## Whole chains -/

/-- Blocks added one after another to `chain`, each of which passes the canonical rule
at some clock of its own. -/
def BuiltCanonically (chain : List Block) : List Block → Prop
  | [] => True
  | block :: rest =>
    (∃ now : UInt64, validateBlockTimestampCanonical block chain now = true) ∧ BuiltCanonically (chain ++ [block]) rest

theorem BuiltCanonically.take {blocks : List Block} {chain : List Block} (h : BuiltCanonically chain blocks) (n : Nat) :
    BuiltCanonically chain (blocks.take n) := by
  induction blocks generalizing chain n with
  | nil => simpa using h
  | cons block rest ih =>
    cases n with
    | zero => trivial
    | succ n => exact ⟨h.1, ih h.2 n⟩

theorem BuiltCanonically.drop {blocks : List Block} {chain : List Block} (h : BuiltCanonically chain blocks) (n : Nat) :
    BuiltCanonically (chain ++ blocks.take n) (blocks.drop n) := by
  induction blocks generalizing chain n with
  | nil => simp [BuiltCanonically]
  | cons block rest ih =>
    cases n with
    | zero => simpa using h
    | succ n =>
      have hrest := ih h.2 n
      rwa [List.append_assoc] at hrest

theorem BuiltCanonically.le_median {blocks : List Block} {chain : List Block} (hne : chain ≠ [])
    (h : BuiltCanonically chain blocks) : computeMedianTimePast chain ≤ computeMedianTimePast (chain ++ blocks) := by
  induction blocks generalizing chain with
  | nil => simp
  | cons block rest ih =>
    obtain ⟨⟨now, hblock⟩, hrest⟩ := h
    have hstep := computeMedianTimePast_snoc hne hblock
    have hrun := ih (by simp) hrest
    rw [List.append_assoc] at hrun
    exact UInt64.le_trans hstep hrun

theorem median_time_never_goes_back :
    (∀ (chain : List Block) (block : Block) (now : UInt64), chain ≠ [] →
      validateBlockTimestampCanonical block chain now = true →
      computeMedianTimePast chain ≤ computeMedianTimePast (chain ++ [block])) ∧
    ∀ (chain blocks : List Block), BuiltCanonically chain blocks → ∀ i j : Nat, i ≤ j →
      computeMedianTimePast (chain ++ blocks.take i) ≤ computeMedianTimePast (chain ++ blocks.take j) := by
  refine ⟨fun chain block now hne h => computeMedianTimePast_snoc hne h, ?_⟩
  intro chain blocks h i j hij
  by_cases hne : chain ++ blocks.take i = []
  · -- the median of no block at all is zero
    simp [hne, computeMedianTimePast]
  · have hbuilt := (h.take j).drop i
    have hi : (blocks.take j).take i = blocks.take i := by rw [List.take_take, Nat.min_eq_left hij]
    rw [hi] at hbuilt
    have hle := hbuilt.le_median hne
    rwa [List.append_assoc, ← hi, List.take_append_drop, hi] at hle

def stampedBlock (timestamp : UInt64) : Block where
  header :=
    { version := 1, height := 0, previousHash := ⟨List.replicate 32 0, rfl⟩,
      merkleRoot := ⟨List.replicate 32 0, rfl⟩, witnessRoot := ⟨List.replicate 32 0, rfl⟩,
      timestamp := timestamp, nonce := 0, difficulty := 8 }
  transactions := []

-- the last block is stamped before its predecessor, and still above the median of the chain it extends
theorem median_time_of_stamped :
    BuiltCanonically [stampedBlock 100] [stampedBlock 300, stampedBlock 400, stampedBlock 350] ∧
    computeMedianTimePast [stampedBlock 100, stampedBlock 300] ≤
      computeMedianTimePast [stampedBlock 100, stampedBlock 300, stampedBlock 400, stampedBlock 350] := by
  have hbuilt : BuiltCanonically [stampedBlock 100] [stampedBlock 300, stampedBlock 400, stampedBlock 350] :=
    ⟨⟨1000, by decide +kernel⟩, ⟨1000, by decide +kernel⟩, ⟨1000, by decide +kernel⟩, trivial⟩
  exact ⟨hbuilt, median_time_never_goes_back.2 _ _ hbuilt 1 3 (by omega)⟩

end Caesar
