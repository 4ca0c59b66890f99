import Caesar.SupplySound

/-!
# Incremental validation

`validate_block_consensus` on top of an accepted chain checks exactly what the
replay of the longer chain would check, and computes the same UTXO set.
-/

namespace Caesar

section
variable {K : Crypto}

theorem chainIssuance_append : ∀ {l m : List Block} {t t' : UInt64},
    chainIssuance (l ++ m) t = some t' ↔ ∃ s, chainIssuance l t = some s ∧ chainIssuance m s = some t'
  | [], m, t, t' => by simp [chainIssuance]
  | block :: l, m, t, t' => by
    simp only [List.cons_append, chainIssuance]
    split
    · exact chainIssuance_append
    · simp only [Option.bind_eq_some_iff, chainIssuance_append (l := l)]
      refine ⟨?_, ?_⟩
      · intro hx
        obtain ⟨s, hs, q, hq, h⟩ := hx
        exact ⟨q, ⟨s, hs, hq⟩, h⟩
      · intro hx
        obtain ⟨q, ⟨s, hs, hq⟩, h⟩ := hx
        exact ⟨s, hs, q, hq, h⟩

/-- Skipping by height counts the same blocks as starting at index one. -/
theorem Replay.chainIssuance {chain : List Block} {u : UTXOSet} {t : UInt64} (h : Replay K chain u t) :
    chainIssuance chain 0 = some t := by
  induction h with
  | genesis hg => simp [Caesar.chainIssuance, (genesis_true hg).1]
  | snoc hr ha ih =>
    refine chainIssuance_append.mpr ⟨_, ih, ?_⟩
    simp [Caesar.chainIssuance, applyBlock_height ha.applies, ha.issuance]

theorem blockAgainstUtxo_ok {block : Block} {u : UTXOSet} : validateBlockAgainstUtxo K block u = .ok true ↔
    ∃ u', block.validateBasic K = .ok true ∧
      applyBlockTransactionsInPlaceAfterBasicValidation K block u = .ok (some u') := by
  simp only [validateBlockAgainstUtxo, bind_ok, pure_ok]
  refine ⟨?_, ?_⟩
  · intro hx
    obtain ⟨x, hx, hs⟩ := hx
    obtain ⟨u', rfl⟩ := Option.isSome_iff_exists.mp hs
    exact ⟨u', applyCanonical_ok.mp hx⟩
  · intro hx
    obtain ⟨u', h⟩ := hx
    exact ⟨some u', applyCanonical_ok.mpr h, rfl⟩

theorem ite_pure_false {c : Prop} [Decidable c] {x : Result Bool} :
    (if c then pure false else x) = .ok true ↔ ¬ c ∧ x = .ok true := by
  by_cases h : c <;> simp [h]

theorem consensus_ok {block : Block} {chain : List Block} {u : UTXOSet} :
    validateBlockConsensus K block chain u = .ok true ↔ ∃ u', block.validateBasic K = .ok true ∧
      Extends K chain block ∧ applyBlockTransactionsInPlaceAfterBasicValidation K block u = .ok (some u') ∧
      validateTotalCoinbaseIssuance block chain = true := by
  unfold validateBlockConsensus Extends
  cases hlast : chain.getLast? with
  | none => simp
  | some previous =>
    simp only [bind_ok, ite_pure_false, pure_ok, Option.some.injEq, exists_eq_left', ne_eq, not_not,
      Bool.not_eq_true', Bool.not_eq_false]
    refine ⟨?_, ?_⟩
    · intro hx
      obtain ⟨_, hb, rfl, hh, hp, ht, hd, valid, hv, rfl, hi⟩ := hx
      obtain ⟨u', -, ha⟩ := blockAgainstUtxo_ok.mp hv
      exact ⟨u', hb, ⟨hh, hp, ht, hd⟩, ha, hi⟩
    · intro hx
      obtain ⟨u', hb, ⟨hh, hp, ht, hd⟩, ha, hi⟩ := hx
      exact ⟨true, hb, rfl, hh, hp, ht, hd, true, blockAgainstUtxo_ok.mpr ⟨u', hb, ha⟩, rfl, hi⟩

theorem consensus_iff_appends {block : Block} {chain : List Block} {u : UTXOSet} {t : UInt64} (h : Replay K chain u t) :
    validateBlockConsensus K block chain u = .ok true ↔ ∃ u' t', Appends K chain u t block u' t' := by
  rw [consensus_ok]
  simp only [validateTotalCoinbaseIssuance, h.chainIssuance, Option.bind_some, Option.isSome_iff_exists]
  refine ⟨?_, ?_⟩
  · intro hx
    obtain ⟨u', hb, he, ha, t', ht⟩ := hx
    exact ⟨u', t', hb, he, ht, ha⟩
  · intro hx
    obtain ⟨u', t', hb, he, ht, ha⟩ := hx
    exact ⟨u', hb, he, ha, t', ht⟩

theorem applyBlockTransactions_ok {block : Block} {u u' : UTXOSet} : applyBlockTransactions K block u = .ok u' ↔
    block.validateBasic K = .ok true ∧
      applyBlockTransactionsInPlaceAfterBasicValidation K block u = .ok (some u') := by
  simp only [applyBlockTransactions, bind_ok]
  refine ⟨?_, ?_⟩
  · intro hx
    obtain ⟨x, hx, h⟩ := hx
    cases x with
    | none => simp at h
    | some w =>
      simp only [pure_ok] at h
      exact h ▸ applyCanonical_ok.mp hx
  · intro h
    exact ⟨some u', applyCanonical_ok.mpr h, rfl⟩

/-- On an accepted chain the incremental check and the full replay accept the same blocks, with the same UTXO
set, because both compute the difficulty from the blocks before. -/
theorem incremental_agrees {chain : List Block} {r : ChainValidationResult}
    (h : validateAndRebuildChain K chain = .ok (some r)) :
    (∀ block, (validateBlockConsensus K block chain r.utxo = .ok true ↔
        validateCandidateChain K (chain ++ [block]) = .ok true) ∧
      (validateBlockConsensus K block chain r.utxo = .ok true →
        ∃ u, applyBlockTransactions K block r.utxo = .ok u ∧ rebuildUtxoSet K (chain ++ [block]) = .ok u)) ∧
    ∀ more, expectedNextDifficulty chain = expectedDifficultyAtPosition (chain ++ more) chain.length := by
  have hr := rebuild_iff.mp h
  refine ⟨fun block => ⟨?_, ?_⟩, fun more => (expectedDifficulty_append (Nat.le_refl _)).symm⟩
  · rw [consensus_iff_appends hr, candidate_iff]
    refine ⟨?_, ?_⟩
    · intro hx
      obtain ⟨u', t', ha⟩ := hx
      exact ⟨u', t', hr.snoc ha⟩
    · intro hx
      obtain ⟨u', t', hr'⟩ := hx
      obtain ⟨u, t, hr₀, ha⟩ := Replay.of_snoc hr.ne_nil hr'
      obtain ⟨rfl, rfl⟩ := hr₀.unique hr
      exact ⟨u', t', ha⟩
  · intro hc
    obtain ⟨u', t', ha⟩ := (consensus_iff_appends hr).mp hc
    exact ⟨u', applyBlockTransactions_ok.mpr ⟨ha.basic, ha.applies⟩, rebuildUtxoSet_ok.mpr ⟨t', hr.snoc ha⟩⟩

end

theorem incremental_agrees_toy : ∃ r, validateAndRebuildChain toyCrypto [toyGenesis, toyFirst] = .ok (some r) ∧
    (validateBlockConsensus toyCrypto toySecond [toyGenesis, toyFirst] r.utxo = .ok true ↔
      validateCandidateChain toyCrypto [toyGenesis, toyFirst, toySecond] = .ok true) := by
  have hv : validateCandidateChain toyCrypto [toyGenesis, toyFirst] = .ok true := by decide +kernel
  obtain ⟨u, t, hr⟩ := candidate_iff.mp hv
  exact ⟨_, rebuild_of_replay hr, ((incremental_agrees (rebuild_of_replay hr)).1 toySecond).1⟩

end Caesar
