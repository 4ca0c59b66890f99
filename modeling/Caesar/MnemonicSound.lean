import Caesar.HdWallet
import Caesar.SupplySound

/-!
# Mnemonics and entropies correspond

The words of an entropy are its bits and those of its checksum in groups of
eleven. A text is valid exactly when its words are those of some entropy
(`validateMnemonic_iff`), and the words determine the entropy
(`mnemonicWords_inj`).
-/

namespace Caesar.Bip39

open Codec (Bytes)
open Bits

/-! ## Words of a text -/

theorem splitLoop_solid {word : Bytes} (hw : ∀ c ∈ word, isBlank c = false) (cur rest : Bytes) :
    splitLoop cur (word ++ rest) = splitLoop (cur ++ word) rest := by
  induction word generalizing cur with
  | nil => simp
  | cons c word ih =>
    rw [List.forall_mem_cons] at hw
    rw [List.cons_append, splitLoop, hw.1, if_neg (by simp), ih hw.2]
    simp

theorem splitWords_intercalate {words : List Bytes} (hne : ∀ word ∈ words, word ≠ [])
    (hsolid : ∀ word ∈ words, ∀ c ∈ word, isBlank c = false) : splitWords (List.intercalate [32] words) = words := by
  unfold splitWords
  induction words with
  | nil => rfl
  | cons word words ih =>
    rw [List.forall_mem_cons] at hne hsolid
    cases words with
    | nil =>
      have hrun := splitLoop_solid hsolid.1 [] []
      rw [List.append_nil, List.nil_append] at hrun
      simp [hrun, splitLoop, hne.1]
    | cons next rest =>
      have hjoin : List.intercalate [32] (word :: next :: rest) =
          word ++ 32 :: List.intercalate [32] (next :: rest) := by
        simp [List.intercalate]
      have hblank : isBlank 32 = true := rfl
      rw [hjoin, splitLoop_solid hsolid.1, List.nil_append, splitLoop, if_pos hblank, if_neg (by simpa using hne.1),
        ih hne.2 hsolid.2]

/-! ## Looking words up -/

section
variable (K : Crypto) (W : WordList)

theorem WordList.idxOf?_iff {word : Bytes} {index : Nat} :
    W.words.idxOf? word = some index ↔ index < 2048 ∧ word = W.words.getD index [] := by
  rw [List.idxOf?_eq_some_iff, ← W.length_eq]
  constructor
  · intro ⟨hlt, hword, _⟩
    exact ⟨hlt, by rw [List.getD_eq_getElem _ _ hlt, hword]⟩
  · intro ⟨hlt, hword⟩
    rw [List.getD_eq_getElem _ _ hlt] at hword
    refine ⟨hlt, hword.symm, ?_⟩
    intro j hj hsame
    rw [hword, W.nodup.getElem_inj_iff] at hsame
    omega

theorem WordList.mapM_idxOf?_iff {words : List Bytes} {indices : List Nat} :
    words.mapM (fun word => W.words.idxOf? word) = some indices ↔
      (∀ index ∈ indices, index < 2048) ∧ words = indices.map fun index => W.words.getD index [] := by
  induction words generalizing indices with
  | nil => cases indices <;> simp
  | cons word words ih =>
    rw [List.mapM_cons]
    cases indices with
    | nil => simp [Option.bind_eq_some_iff]
    | cons index indices =>
      simp only [Option.bind_eq_bind, Option.bind_eq_some_iff, Option.pure_def, Option.some.injEq, List.cons.injEq, ih,
        W.idxOf?_iff, List.forall_mem_cons, List.map_cons]
      constructor
      · intro ⟨i, hi, is, his, h⟩
        obtain ⟨rfl, rfl⟩ := h
        exact ⟨⟨hi.1, his.1⟩, hi.2, his.2⟩
      · intro ⟨hlt, hword, hwords⟩
        exact ⟨index, ⟨hlt.1, hword⟩, indices, ⟨hlt.2, hwords⟩, rfl, rfl⟩

theorem WordList.getD_inj {i j : Nat} (hi : i < 2048) (hj : j < 2048) (h : W.words.getD i [] = W.words.getD j []) :
    i = j := by
  rw [← W.length_eq] at hi hj
  rwa [List.getD_eq_getElem _ _ hi, List.getD_eq_getElem _ _ hj, W.nodup.getElem_inj_iff] at h

/-! ## The bits of a list of indices -/

def indexBits (indices : List Nat) : List Bool :=
  indices.flatMap fun index => (List.range 11).map fun j => index.testBit (10 - j)

theorem indexBits_getD {indices : List Nat} {i j : Nat} (hi : i < indices.length) (hj : j < 11) :
    (indexBits indices).getD (i * 11 + j) false = indices[i].testBit (10 - j) := by
  rw [indexBits, getD_flatMap_uniform (w := 11) (by simp) false indices hi hj,
    List.getD_eq_getElem _ _ (by simpa using hj)]
  simp

/-- The indices are the words of the entropy and its checksum exactly when their bits are. -/
theorem eq_map_wordIndex_iff {indices : List Nat} (hlt : ∀ index ∈ indices, index < 2048) (entropy : Bytes)
    (hash : Hash256) :
    indices = (List.range indices.length).map (wordIndex entropy hash) ↔
      ∀ pos < indices.length * 11, (indexBits indices).getD pos false = mnemonicBit entropy hash pos := by
  constructor
  · intro h pos hpos
    have hi : pos / 11 < indices.length := by omega
    have hj : pos % 11 < 11 := Nat.mod_lt _ (by omega)
    have hword : indices[pos / 11] = wordIndex entropy hash (pos / 11) := by
      have hget := List.getElem_of_eq h hi
      simpa using hget
    have hbits := indexBits_getD hi hj
    have hgather := testBit_gather 11 (fun j => mnemonicBit entropy hash (pos / 11 * 11 + j)) hj
    rw [Nat.div_add_mod' pos 11] at hbits hgather
    rw [hbits, hword]
    exact hgather
  · intro h
    apply List.ext_getElem
    · simp
    intro i hi _
    rw [List.getElem_map, List.getElem_range]
    apply eq_gather (hlt _ (List.getElem_mem hi))
    intro j hj
    rw [← h (i * 11 + j) (by omega), indexBits_getD hi hj]

theorem wordIndex_lt (entropy : Bytes) (hash : Hash256) (i : Nat) : wordIndex entropy hash i < 2048 :=
  gather_lt 11 _

/-! ## The entropy rebuilt from bits -/

@[simp] theorem rebuildEntropy_length (bits : List Bool) (entropyBytes n : Nat) :
    (rebuildEntropy bits entropyBytes n).length = entropyBytes := by
  induction n with
  | zero => simp [rebuildEntropy]
  | succ n ih =>
    rw [rebuildEntropy]
    by_cases h : bits.getD n false = true
    · rw [if_pos h, setBit_length, ih]
    · rw [if_neg h, ih]

theorem bitAt_rebuildEntropy (bits : List Bool) {entropyBytes n : Nat} (hn : n ≤ 8 * entropyBytes) (pos : Nat) :
    bitAt (rebuildEntropy bits entropyBytes n) pos = (decide (pos < n) && bits.getD pos false) := by
  induction n with
  | zero => simp [rebuildEntropy, bitAt_replicate_zero]
  | succ n ih =>
    have hprev := ih (by omega)
    -- only the bit at `n` can differ from the turn before
    have hlt : decide (pos < n + 1) = (decide (pos < n) || decide (n = pos)) := by
      rw [← Bool.decide_or]
      congr 1
      apply propext
      omega
    rw [rebuildEntropy, hlt]
    by_cases h : bits.getD n false = true
    · rw [if_pos h, bitAt_setBit (by rw [rebuildEntropy_length]; omega), hprev]
      by_cases hpos : n = pos
      · rw [← hpos, h]
        simp
      · simp [hpos]
    · rw [if_neg h, hprev]
      by_cases hpos : n = pos
      · rw [← hpos, Bool.eq_false_iff.mpr h]
        simp
      · simp [hpos]

theorem rebuildEntropy_eq {bits : List Bool} {entropy : Bytes}
    (h : ∀ pos < 8 * entropy.length, bits.getD pos false = bitAt entropy pos) :
    rebuildEntropy bits entropy.length (8 * entropy.length) = entropy := by
  apply eq_of_bitAt
  · rw [rebuildEntropy_length]
  intro pos hpos
  rw [rebuildEntropy_length] at hpos
  rw [bitAt_rebuildEntropy bits le_rfl, ← h pos hpos]
  simp [hpos]

/-! ## The words of an entropy -/

/-- The sizes are four bytes for each of four to eight checksum bits. -/
def EntropySize (n : Nat) : Prop := n = 16 ∨ n = 20 ∨ n = 24 ∨ n = 28 ∨ n = 32

theorem entropySize_iff {n : Nat} : EntropySize n ↔ ∃ k, 4 ≤ k ∧ k ≤ 8 ∧ n = 4 * k := by
  unfold EntropySize
  constructor
  · intro h
    exact ⟨n / 4, by omega, by omega, by omega⟩
  · intro ⟨k, _, _, _⟩
    omega

def mnemonicIndices (entropy : Bytes) : List Nat :=
  (List.range (3 * (entropy.length / 4))).map (wordIndex entropy (K.sha256 entropy))

def mnemonicWords (entropy : Bytes) : List Bytes :=
  (mnemonicIndices K entropy).map fun index => W.words.getD index []

theorem mnemonicIndices_lt (entropy : Bytes) : ∀ index ∈ mnemonicIndices K entropy, index < 2048 := by
  intro index h
  obtain ⟨i, -, rfl⟩ := List.mem_map.mp h
  exact wordIndex_lt _ _ _

theorem mem_mnemonicWords {entropy word : Bytes} (h : word ∈ mnemonicWords K W entropy) : word ∈ W.words := by
  obtain ⟨index, hindex, rfl⟩ := List.mem_map.mp h
  have hlt : index < W.words.length := by
    rw [W.length_eq]
    exact mnemonicIndices_lt K entropy index hindex
  rw [List.getD_eq_getElem _ _ hlt]
  exact List.getElem_mem hlt

theorem entropyToMnemonic_ok {entropy mnemonic : Bytes} :
    entropyToMnemonic K W entropy = .ok mnemonic ↔
      EntropySize entropy.length ∧ mnemonic = List.intercalate [32] (mnemonicWords K W entropy) := by
  unfold entropyToMnemonic
  by_cases h : EntropySize entropy.length
  · obtain ⟨k, hlo, hhi, hk⟩ := entropySize_iff.mp h
    have hcount : (entropy.length * 8 + entropy.length * 8 / 32) / 11 = 3 * (entropy.length / 4) := by omega
    rw [if_neg (by unfold EntropySize at h; omega)]
    simp only [hcount, h, true_and, Except.ok.injEq, mnemonicWords, mnemonicIndices, List.map_map]
    exact eq_comm
  · rw [if_pos (by unfold EntropySize at h; omega)]
    simp [h, fail]

theorem splitWords_mnemonic (entropy : Bytes) :
    splitWords (List.intercalate [32] (mnemonicWords K W entropy)) = mnemonicWords K W entropy :=
  splitWords_intercalate (fun word h => W.ne_nil word (mem_mnemonicWords K W h))
    fun word h => W.solid word (mem_mnemonicWords K W h)

theorem mnemonicIndices_bits {entropy : Bytes} {k : Nat} (hk : entropy.length = 4 * k) :
    ∀ pos < 33 * k, (indexBits (mnemonicIndices K entropy)).getD pos false =
      mnemonicBit entropy (K.sha256 entropy) pos := by
  have hlen : (mnemonicIndices K entropy).length = 3 * k := by
    simp only [mnemonicIndices, List.length_map, List.length_range]
    omega
  have hself : mnemonicIndices K entropy =
      (List.range (mnemonicIndices K entropy).length).map (wordIndex entropy (K.sha256 entropy)) := by
    rw [hlen, mnemonicIndices, hk]
    congr 2
    omega
  have hbits := (eq_map_wordIndex_iff (mnemonicIndices_lt K entropy) entropy (K.sha256 entropy)).mp hself
  intro pos hpos
  exact hbits pos (by omega)

theorem mnemonicWords_inj {a b : Bytes} (ha : EntropySize a.length) (hb : EntropySize b.length)
    (h : mnemonicWords K W a = mnemonicWords K W b) : a = b := by
  obtain ⟨k, -, -, hk⟩ := entropySize_iff.mp ha
  obtain ⟨l, -, -, hl⟩ := entropySize_iff.mp hb
  have hlen := congrArg List.length h
  simp only [mnemonicWords, mnemonicIndices, List.length_map, List.length_range] at hlen
  have hkl : a.length = b.length := by omega
  have hindices : mnemonicIndices K a = mnemonicIndices K b := by
    apply List.ext_getElem
    · simpa [mnemonicWords] using congrArg List.length h
    intro i hi hj
    apply W.getD_inj (mnemonicIndices_lt K a _ (List.getElem_mem hi)) (mnemonicIndices_lt K b _ (List.getElem_mem hj))
    have hword := List.getElem_of_eq h (i := i) (by simpa [mnemonicWords] using hi)
    simpa [mnemonicWords] using hword
  apply eq_of_bitAt hkl
  intro pos hpos
  have hbita := mnemonicIndices_bits K hk pos (by omega)
  have hbitb := mnemonicIndices_bits K hl pos (by omega)
  rw [hindices, hbitb] at hbita
  simpa [mnemonicBit, show pos < a.length * 8 by omega, show pos < b.length * 8 by omega] using hbita.symm

/-! ## Valid texts -/

/-- The test of a text of `3 * k` words whose indices have been found. -/
theorem validateMnemonic_of_indices {mnemonic : Bytes} {indices : List Nat} {k : Nat} (hlo : 4 ≤ k) (hhi : k ≤ 8)
    (hlen : (splitWords mnemonic).length = 3 * k)
    (hindices : (splitWords mnemonic).mapM (fun word => W.words.idxOf? word) = some indices) :
    validateMnemonic K W mnemonic = true ↔ ∀ i < k, (indexBits indices).getD (32 * k + i) false =
      bitAt (K.sha256 (rebuildEntropy (indexBits indices) (4 * k) (32 * k))).1 i := by
  have hbits : wordBits W (splitWords mnemonic) = some (indexBits indices) := by
    simp [wordBits, hindices, indexBits]
  have hchecksum : (splitWords mnemonic).length * 11 / 33 = k := by omega
  have hentropy : (splitWords mnemonic).length * 11 - k = 32 * k := by omega
  have hbytes : 32 * k / 8 = 4 * k := by omega
  unfold validateMnemonic
  rw [if_neg (by omega)]
  simp only [hbits, hchecksum, hentropy, hbytes, List.all_eq_true, List.mem_range, beq_iff_eq]

theorem validateMnemonic_words {mnemonic : Bytes} (h : validateMnemonic K W mnemonic = true) :
    ∃ (k : Nat) (indices : List Nat), 4 ≤ k ∧ k ≤ 8 ∧ (splitWords mnemonic).length = 3 * k ∧
      (splitWords mnemonic).mapM (fun word => W.words.idxOf? word) = some indices := by
  unfold validateMnemonic at h
  by_cases hcount : (splitWords mnemonic).length ≠ 12 ∧ (splitWords mnemonic).length ≠ 15 ∧
      (splitWords mnemonic).length ≠ 18 ∧ (splitWords mnemonic).length ≠ 21 ∧ (splitWords mnemonic).length ≠ 24
  · rw [if_pos hcount] at h
    cases h
  · cases hm : (splitWords mnemonic).mapM (fun word => W.words.idxOf? word) with
    | none =>
      have hbits : wordBits W (splitWords mnemonic) = none := by simp [wordBits, hm]
      rw [if_neg hcount, hbits] at h
      cases h
    | some indices => exact ⟨(splitWords mnemonic).length / 3, indices, by omega, by omega, by omega, rfl⟩

theorem validateMnemonic_iff {mnemonic : Bytes} :
    validateMnemonic K W mnemonic = true ↔
      ∃ entropy : Bytes, EntropySize entropy.length ∧ splitWords mnemonic = mnemonicWords K W entropy := by
  constructor
  · intro h
    obtain ⟨k, indices, hlo, hhi, hlen, hindices⟩ := validateMnemonic_words K W h
    have hcheck := (validateMnemonic_of_indices K W hlo hhi hlen hindices).mp h
    obtain ⟨hlt, hwords⟩ := W.mapM_idxOf?_iff.mp hindices
    have hcount : indices.length = 3 * k := by rw [← hlen, hwords, List.length_map]
    let entropy := rebuildEntropy (indexBits indices) (4 * k) (32 * k)
    have hbytes : entropy.length = 4 * k := rebuildEntropy_length _ _ _
    refine ⟨entropy, entropySize_iff.mpr ⟨k, hlo, hhi, hbytes⟩, ?_⟩
    have hself : indices = (List.range indices.length).map (wordIndex entropy (K.sha256 entropy)) := by
      rw [eq_map_wordIndex_iff hlt]
      intro pos hpos
      by_cases hin : pos < entropy.length * 8
      · have hbit := bitAt_rebuildEntropy (indexBits indices) (show 32 * k ≤ 8 * (4 * k) by omega) pos
        rw [mnemonicBit, if_pos hin, hbit]
        simp [show pos < 32 * k by omega]
      · have hbit := hcheck (pos - 32 * k) (by omega)
        rw [show 32 * k + (pos - 32 * k) = pos by omega] at hbit
        rw [mnemonicBit, if_neg hin, hbit, hbytes, show 4 * k * 8 = 32 * k by omega]
    have hmine : mnemonicIndices K entropy = indices := by
      rw [mnemonicIndices, hbytes, show 4 * k / 4 = k by omega, ← hcount]
      exact hself.symm
    rw [mnemonicWords, hmine]
    exact hwords
  · intro ⟨entropy, hsize, hwords⟩
    obtain ⟨k, hlo, hhi, hk⟩ := entropySize_iff.mp hsize
    have hbits := mnemonicIndices_bits K hk
    have hlen : (splitWords mnemonic).length = 3 * k := by
      simp only [hwords, mnemonicWords, mnemonicIndices, List.length_map, List.length_range]
      omega
    have hindices := W.mapM_idxOf?_iff.mpr ⟨mnemonicIndices_lt K entropy, hwords⟩
    rw [validateMnemonic_of_indices K W hlo hhi hlen hindices]
    have hrebuild : rebuildEntropy (indexBits (mnemonicIndices K entropy)) (4 * k) (32 * k) = entropy := by
      have hself : rebuildEntropy (indexBits (mnemonicIndices K entropy)) entropy.length (8 * entropy.length) = entropy := by
        apply rebuildEntropy_eq
        intro pos hpos
        rw [hbits pos (by omega), mnemonicBit, if_pos (by omega)]
      rwa [hk, show 8 * (4 * k) = 32 * k by omega] at hself
    intro i hi
    rw [hrebuild, hbits _ (by omega), mnemonicBit, if_neg (by omega), hk, show 32 * k + i - 4 * k * 8 = i by omega]

end

theorem mnemonic_coding_exact (K : Crypto) (W : WordList) :
    (∀ entropy : Bytes, EntropySize entropy.length →
      ∃ mnemonic : Bytes, entropyToMnemonic K W entropy = .ok mnemonic ∧ validateMnemonic K W mnemonic = true) ∧
    (∀ a b mnemonic : Bytes, entropyToMnemonic K W a = .ok mnemonic → entropyToMnemonic K W b = .ok mnemonic → a = b) ∧
    ∀ text : Bytes, validateMnemonic K W text = true →
      ∃! entropy : Bytes, EntropySize entropy.length ∧
        ∃ mnemonic : Bytes, entropyToMnemonic K W entropy = .ok mnemonic ∧ splitWords mnemonic = splitWords text := by
  refine ⟨?_, ?_, ?_⟩
  · intro entropy hsize
    refine ⟨_, (entropyToMnemonic_ok K W).mpr ⟨hsize, rfl⟩, ?_⟩
    rw [validateMnemonic_iff]
    exact ⟨entropy, hsize, splitWords_mnemonic K W entropy⟩
  · intro a b mnemonic ha hb
    obtain ⟨hsizea, hma⟩ := (entropyToMnemonic_ok K W).mp ha
    obtain ⟨hsizeb, hmb⟩ := (entropyToMnemonic_ok K W).mp hb
    apply mnemonicWords_inj K W hsizea hsizeb
    rw [← splitWords_mnemonic K W a, ← hma, hmb, splitWords_mnemonic K W b]
  · intro text h
    obtain ⟨entropy, hsize, hwords⟩ := (validateMnemonic_iff K W).mp h
    refine ⟨entropy, ⟨hsize, _, (entropyToMnemonic_ok K W).mpr ⟨hsize, rfl⟩, ?_⟩, ?_⟩
    · rw [splitWords_mnemonic, hwords]
    · intro other ⟨hsize', mnemonic, hok, hsplit⟩
      obtain ⟨-, hmnemonic⟩ := (entropyToMnemonic_ok K W).mp hok
      apply mnemonicWords_inj K W hsize' hsize
      rw [← splitWords_mnemonic K W other, ← hmnemonic, hsplit, hwords]

/-! ## A word list -/

def toyWord (i : Nat) : Bytes := [UInt8.ofNat (100 + i / 128), UInt8.ofNat (100 + i % 128)]

theorem toyWord_inj {i j : Nat} (hi : i < 2048) (hj : j < 2048) (h : toyWord i = toyWord j) : i = j := by
  simp only [toyWord, List.cons.injEq, ← UInt8.toNat_inj, UInt8.toNat_ofNat'] at h
  omega

theorem toyWord_solid {i : Nat} (hi : i < 2048) : ∀ c ∈ toyWord i, isBlank c = false := by
  intro c hc
  have hge : 100 ≤ c.toNat := by
    simp only [toyWord, List.mem_cons, List.not_mem_nil, or_false] at hc
    obtain rfl | rfl := hc <;> simp only [UInt8.toNat_ofNat'] <;> omega
  simp only [isBlank, Bool.or_eq_false_iff, decide_eq_false_iff_not, ← UInt8.toNat_inj, UInt8.reduceToNat]
  omega

def toyWordList : WordList where
  words := (List.range 2048).map toyWord
  length_eq := by rw [List.length_map, List.length_range]
  nodup := List.Nodup.map_on
    (fun _ hi _ hj h => toyWord_inj (List.mem_range.mp hi) (List.mem_range.mp hj) h) List.nodup_range
  ne_nil := by
    intro word h
    obtain ⟨i, -, rfl⟩ := List.mem_map.mp h
    simp [toyWord]
  solid := by
    intro word h
    obtain ⟨i, hi, rfl⟩ := List.mem_map.mp h
    exact toyWord_solid (List.mem_range.mp hi)

theorem mnemonic_coding_toy :
    ∃ mnemonic : Bytes, entropyToMnemonic toyCrypto toyWordList (List.replicate 16 7) = .ok mnemonic ∧
      validateMnemonic toyCrypto toyWordList mnemonic = true :=
  (mnemonic_coding_exact toyCrypto toyWordList).1 (List.replicate 16 7) (Or.inl rfl)

end Caesar.Bip39
