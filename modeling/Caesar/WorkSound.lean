import Caesar.SupplySound
import Caesar.BlockSound

/-!
# Cumulative work

A 512-bit sum of block works that fits is the sum of the powers of two
(`Weighable.cumulativeWork`), and comparing two chains by work compares these
sums. On an accepted chain it always fits (`Replay.weighable`).
-/

namespace Caesar

def ChainWork.toNat (work : ChainWork) : Nat := Limbs.value work.1

theorem ChainWork.lt_iff_toNat (a b : ChainWork) : a.lt b = true ↔ a.toNat < b.toNat :=
  Limbs.lt_iff a.1 b.1 (by rw [a.2, b.2])

theorem ChainWork.add_carry (a b : ChainWork) :
    Limbs.value (Limbs.add 0 a.1 b.1).1 + 2 ^ 512 * (Limbs.add 0 a.1 b.1).2.toNat = a.toNat + b.toNat := by
  have hv := Limbs.add_value 0 a.1 b.1 (by decide) (by rw [a.2, b.2])
  rw [a.2] at hv
  exact hv

theorem ChainWork.add_ok {a b : ChainWork} (h : a.toNat + b.toNat < 2 ^ 512) :
    ∃ w, a.add b = .ok w ∧ w.toNat = a.toNat + b.toNat := by
  have hv := ChainWork.add_carry a b
  have hcarry : (Limbs.add 0 a.1 b.1).2 = 0 := by
    by_contra hne
    have hpos : 0 < (Limbs.add 0 a.1 b.1).2.toNat := by
      rw [Nat.pos_iff_ne_zero]
      exact fun hz => hne (UInt64.toNat.inj hz)
    have := Nat.mul_le_mul_left (2 ^ 512) hpos
    omega
  rw [hcarry, UInt64.toNat_zero, Nat.mul_zero, Nat.add_zero] at hv
  unfold ChainWork.add
  rw [if_neg (by simp [hcarry])]
  exact ⟨_, rfl, hv⟩

theorem ChainWork.add_overflow {a b : ChainWork} (h : 2 ^ 512 ≤ a.toNat + b.toNat) :
    a.add b = .error (.overflowError "cumulative chain work exceeds 512 bits") := by
  have hv := ChainWork.add_carry a b
  have hlt : Limbs.value (Limbs.add 0 a.1 b.1).1 < 2 ^ 512 := by
    have hlen := Limbs.add_length 0 a.1 b.1 (by rw [a.2, b.2])
    have hvalue := Limbs.value_lt (Limbs.add 0 a.1 b.1).1
    rwa [hlen, a.2] at hvalue
  -- without a carry out of the top limb the eight limbs would have to hold the sum
  have hcarry : (Limbs.add 0 a.1 b.1).2 ≠ 0 := by
    intro hzero
    rw [hzero, UInt64.toNat_zero] at hv
    omega
  unfold ChainWork.add
  rw [if_pos hcarry]

theorem ChainWork.powerOfTwo_ok {e : UInt32} (h : e.toNat < 512) :
    ∃ w, ChainWork.powerOfTwo e = .ok w ∧ w.toNat = 2 ^ e.toNat := by
  have hexp : ¬ e ≥ 512 := by
    rw [ge_iff_le, UInt32.le_iff_toNat_le]
    exact Nat.not_le.mpr h
  unfold ChainWork.powerOfTwo
  rw [if_neg hexp]
  refine ⟨_, rfl, ?_⟩
  have hbit := Limbs.value_set_bit 8 (e.toNat / 64) (e.toNat % 64) (by omega) (Nat.mod_lt _ (by decide))
  rw [ChainWork.toNat, hbit, Nat.div_add_mod]

theorem blockWork_ok {block : Block} (h : block.header.difficulty.toNat ≤ 256) :
    ∃ w, blockWork block = .ok w ∧ w.toNat = 2 ^ block.header.difficulty.toNat := by
  have hmax : ¬ block.header.difficulty > czrMaxDifficulty := by
    rw [gt_iff_lt, UInt32.lt_iff_toNat_lt]
    exact Nat.not_lt.mpr h
  unfold blockWork
  rw [if_neg hmax]
  exact ChainWork.powerOfTwo_ok (Nat.lt_of_le_of_lt h (by decide))

/-- The expected number of hashes behind a chain. -/
def work (chain : List Block) : Nat := (chain.map fun block => 2 ^ block.header.difficulty.toNat).sum

theorem work_append (l m : List Block) : work (l ++ m) = work l + work m := by
  simp [work]

theorem work_pos {chain : List Block} (h : chain ≠ []) : 0 < work chain := by
  cases chain with
  | nil => exact absurd rfl h
  | cons block rest =>
    have := Nat.two_pow_pos block.header.difficulty.toNat
    simp only [work, List.map_cons, List.sum_cons]
    omega

theorem addChainWork_ok : ∀ {chain : List Block} (total : ChainWork),
    (∀ block ∈ chain, block.header.difficulty.toNat ≤ 256) → total.toNat + work chain < 2 ^ 512 →
    ∃ w, addChainWork chain total = .ok w ∧ w.toNat = total.toNat + work chain
  | [], total, _, _ => ⟨total, rfl, by simp [work]⟩
  | block :: rest, total, hd, hlt => by
    obtain ⟨bw, hbw, hval⟩ := blockWork_ok (hd block (by simp))
    simp only [work, List.map_cons, List.sum_cons] at hlt ⊢
    obtain ⟨next, hnext, hnval⟩ := ChainWork.add_ok (a := total) (b := bw) (by omega)
    obtain ⟨w, hw, hwval⟩ := addChainWork_ok next
      (fun b (hb : b ∈ rest) => hd b (List.mem_cons_of_mem _ hb)) (by rw [hnval, hval, work]; omega)
    refine ⟨w, by simp [addChainWork, hbw, hnext, hw, bind, Except.bind], ?_⟩
    rw [hwval, hnval, hval, work]
    omega

/-- The chains whose work eight limbs can hold. -/
structure Weighable (chain : List Block) : Prop where
  ne_nil : chain ≠ []
  difficulty_le : ∀ block ∈ chain, block.header.difficulty ≤ czrMaxDifficulty
  work_lt : work chain < 2 ^ 512

theorem Weighable.cumulativeWork {chain : List Block} (h : Weighable chain) :
    ∃ w, cumulativeChainWork chain = .ok w ∧ w.toNat = work chain := by
  have hzero : ChainWork.zero.toNat = 0 := by decide
  obtain ⟨w, hw, hval⟩ := addChainWork_ok ChainWork.zero
    (fun block hb => UInt32.le_iff_toNat_le.mp (h.difficulty_le block hb))
    (by rw [hzero, Nat.zero_add]; exact h.work_lt)
  refine ⟨w, ?_, by rw [hval, hzero, Nat.zero_add]⟩
  rw [cumulativeChainWork, if_neg (by simp [h.ne_nil])]
  exact hw

theorem Weighable.hasMoreWork_eq {candidate current : List Block} (h : Weighable candidate) (h' : Weighable current) :
    hasMoreWork candidate current = .ok (decide (work current < work candidate)) := by
  obtain ⟨w, hw, hval⟩ := h.cumulativeWork
  obtain ⟨w', hw', hval'⟩ := h'.cumulativeWork
  rw [hasMoreWork, if_neg (by simp [h.ne_nil]), if_neg (by simp [h'.ne_nil]), hw, hw']
  show Except.ok (w'.lt w) = _
  rw [Except.ok.injEq, Bool.eq_iff_iff, ChainWork.lt_iff_toNat, hval, hval', decide_eq_true_iff]

theorem Weighable.hasMoreWork_iff {candidate current : List Block} (h : Weighable candidate) (h' : Weighable current) :
    hasMoreWork candidate current = .ok true ↔ work current < work candidate := by
  rw [h.hasMoreWork_eq h', Except.ok.injEq, decide_eq_true_iff]

theorem work_perm {chain chain' : List Block} (h : chain.Perm chain') : work chain' = work chain :=
  (h.symm.map _).sum_eq

theorem Weighable.perm {chain chain' : List Block} (h : Weighable chain) (hp : chain.Perm chain') : Weighable chain' where
  ne_nil := fun hnil => h.ne_nil (List.Perm.eq_nil (hnil ▸ hp))
  difficulty_le := fun block hb => h.difficulty_le block (hp.mem_iff.mpr hb)
  work_lt := by rw [work_perm hp]; exact h.work_lt

/-- Having more work is the order of the works, which are numbers. -/
theorem hasMoreWork_strictWeakOrder :
    IsStrictWeakOrder {chain : List Block // Weighable chain} fun a b => hasMoreWork a.1 b.1 = .ok true where
  irrefl := fun a => by
    rw [a.2.hasMoreWork_iff a.2]
    exact Nat.lt_irrefl _
  trans := fun a b c => by
    rw [a.2.hasMoreWork_iff b.2, b.2.hasMoreWork_iff c.2, a.2.hasMoreWork_iff c.2]
    exact fun hab hbc => Nat.lt_trans hbc hab
  incomp_trans := fun a b c => by
    rw [a.2.hasMoreWork_iff b.2, b.2.hasMoreWork_iff a.2, b.2.hasMoreWork_iff c.2, c.2.hasMoreWork_iff b.2,
      a.2.hasMoreWork_iff c.2, c.2.hasMoreWork_iff a.2]
    omega

theorem chain_work_exact :
    (∀ a b : ChainWork,
      (a.toNat + b.toNat < 2 ^ 512 → ∃ w, a.add b = .ok w ∧ w.toNat = a.toNat + b.toNat) ∧
      (2 ^ 512 ≤ a.toNat + b.toNat → a.add b = .error (.overflowError "cumulative chain work exceeds 512 bits"))) ∧
    (∀ a b : ChainWork, a.lt b = true ↔ a.toNat < b.toNat) ∧
    (∀ e : UInt32, e.toNat < 512 → ∃ w, ChainWork.powerOfTwo e = .ok w ∧ w.toNat = 2 ^ e.toNat) ∧
    (∀ chain, Weighable chain → ∃ w, cumulativeChainWork chain = .ok w ∧ w.toNat = work chain) ∧
    (∀ a b, Weighable a → Weighable b → hasMoreWork a b = .ok (decide (work b < work a))) ∧
    (IsStrictWeakOrder {chain : List Block // Weighable chain} fun a b => hasMoreWork a.1 b.1 = .ok true) ∧
    (∀ a a' b b' : List Block, a.Perm a' → b.Perm b' → Weighable a → Weighable b →
      hasMoreWork a' b' = hasMoreWork a b) := by
  refine ⟨fun a b => ⟨ChainWork.add_ok, ChainWork.add_overflow⟩, ChainWork.lt_iff_toNat,
    fun e => ChainWork.powerOfTwo_ok, fun chain h => h.cumulativeWork, fun a b ha hb => ha.hasMoreWork_eq hb,
    hasMoreWork_strictWeakOrder, ?_⟩
  intro a a' b b' hpa hpb ha hb
  rw [(ha.perm hpa).hasMoreWork_eq (hb.perm hpb), ha.hasMoreWork_eq hb, work_perm hpa, work_perm hpb]

theorem chain_work_exact_toy : Weighable [toyGenesis, toyFirst] ∧ Weighable [toyGenesis] ∧
    hasMoreWork [toyFirst, toyGenesis] [toyGenesis] = .ok true := by
  have hlong : Weighable [toyGenesis, toyFirst] := ⟨by simp, by decide +kernel, by decide +kernel⟩
  have hshort : Weighable [toyGenesis] := ⟨by simp, by decide +kernel, by decide +kernel⟩
  obtain ⟨-, -, -, -, hmore, -, hperm⟩ := chain_work_exact
  refine ⟨hlong, hshort, ?_⟩
  rw [hperm _ _ _ _ (.swap _ _ _) (.refl _) hlong hshort, hmore _ _ hlong hshort, Except.ok.injEq]
  decide +kernel

section
variable {K : Crypto} {chain candidate : List Block} {u u' : UTXOSet} {t t' : UInt64}

theorem Replay.length_le (h : Replay K chain u t) : chain.length ≤ 2 ^ 64 := by
  have hpos := List.length_pos_of_ne_nil h.ne_nil
  have hlast := h.height (chain.length - 1) _ (List.getElem?_eq_getElem (by omega))
  have := (chain[chain.length - 1]).header.height.toNat_lt
  omega

theorem Replay.basic (h : Replay K chain u t) : ∀ block ∈ chain, block.validateBasic K = .ok true := by
  induction h with
  | genesis hg => simpa using (genesis_true hg).2.2
  | snoc hr ha ih =>
    intro block hb
    rcases List.mem_append.mp hb with hb | hb
    · exact ih block hb
    · rw [List.mem_singleton.mp hb]
      exact ha.basic

theorem work_le {chain : List Block} (h : ∀ block ∈ chain, block.header.difficulty.toNat ≤ 256) :
    work chain ≤ chain.length * 2 ^ 256 := by
  induction chain with
  | nil => simp [work]
  | cons block rest ih =>
    have hblock := Nat.pow_le_pow_right (n := 2) (by decide) (h block (by simp))
    have hrest := ih fun b hb => h b (List.mem_cons_of_mem _ hb)
    simp only [work, List.map_cons, List.sum_cons, List.length_cons, Nat.succ_mul] at hrest ⊢
    omega

theorem Replay.weighable (h : Replay K chain u t) : Weighable chain where
  ne_nil := h.ne_nil
  difficulty_le := fun block hb => UInt32.le_iff_toNat_le.mpr (basic_difficulty (h.basic block hb))
  work_lt := by
    have hwork := work_le fun block hb => basic_difficulty (h.basic block hb)
    have hlen : chain.length * 2 ^ 256 ≤ 2 ^ 64 * 2 ^ 256 := Nat.mul_le_mul_right _ h.length_le
    omega

theorem Replay.cumulativeWork (h : Replay K chain u t) :
    ∃ w, cumulativeChainWork chain = .ok w ∧ w.toNat = work chain :=
  h.weighable.cumulativeWork

theorem hasMoreWork_eq (h : Replay K candidate u t) (h' : Replay K chain u' t') :
    hasMoreWork candidate chain = .ok (decide (work chain < work candidate)) :=
  h.weighable.hasMoreWork_eq h'.weighable

end

end Caesar
