import Caesar.MempoolSound

/-!
# The two checks by value

`validate_for_mempool` and `validate_transaction_against_utxo` state the same
rules twice. The loops over the inputs give the same sum, and the one over the
outputs is that of `Transaction::validate`, so the checks agree on every UTXO set
(`validateForMempool_iff`).
-/

namespace Caesar

theorem mempoolInputs_toOption (u : UTXOSet) (inputs : List TransactionInput) : ∀ (seen : Finset OutPoint) (sum : UInt64),
    (mempoolInputs u seen sum inputs).toOption = sumInputs u seen sum inputs := by
  induction inputs with
  | nil => exact fun seen sum => rfl
  | cons input rest ih =>
    intro seen sum
    unfold mempoolInputs sumInputs
    by_cases hseen : input.point ∈ seen
    · rw [if_pos hseen, if_pos hseen]
      rfl
    rw [if_neg hseen, if_neg hseen]
    cases hget : u.get input.point with
    | none =>
      dsimp only
      rw [ite_self]
      rfl
    | some previous =>
      have hin : u.contains input.point = true := decide_eq_true (Finmap.mem_of_lookup_eq_some hget)
      rw [hin, if_neg (by simp)]
      dsimp only
      by_cases hfit : previous.amount > uint64Max - sum
      · rw [if_pos hfit, if_pos hfit]
        rfl
      · rw [if_neg hfit, if_neg hfit, ih]

theorem mempoolInputs_error {u : UTXOSet} {reason : MempoolRejectReason} {inputs : List TransactionInput} :
    ∀ {seen : Finset OutPoint} {sum : UInt64}, mempoolInputs u seen sum inputs = .error reason → reason ≠ .none := by
  induction inputs with
  | nil =>
    intro seen sum h
    cases h
  | cons input rest ih =>
    intro seen sum h
    unfold mempoolInputs at h
    split at h
    · cases h
      decide
    · split at h
      · cases h
        decide
      · split at h
        · cases h
          decide
        · split at h
          · cases h
            decide
          · exact ih h

theorem mempoolOutputs_toOption (outputs : List TransactionOutput) : ∀ sum : UInt64,
    (mempoolOutputs sum outputs).toOption = validateOutputs sum outputs := by
  induction outputs with
  | nil => exact fun sum => rfl
  | cons output rest ih =>
    intro sum
    unfold mempoolOutputs validateOutputs
    by_cases hamount : output.amount = 0
    · rw [if_pos (Or.inl hamount), if_pos hamount]
      rfl
    by_cases hrecipient : output.recipient = []
    · rw [if_pos (Or.inr hrecipient), if_neg hamount, if_pos (List.isEmpty_iff.mpr hrecipient)]
      rfl
    have hpayable : ¬ output.recipient.isEmpty = true := fun h => hrecipient (List.isEmpty_iff.mp h)
    rw [if_neg (not_or.mpr ⟨hamount, hrecipient⟩), if_neg hamount, if_neg hpayable]
    by_cases hfit : output.amount > uint64Max - sum
    · rw [if_pos hfit, if_pos hfit]
      rfl
    · rw [if_neg hfit, if_neg hfit, ih]

theorem sumOutputs_of_validateOutputs {s : UInt64} {outputs : List TransactionOutput} : ∀ {sum : UInt64},
    validateOutputs sum outputs = some s → sumOutputs sum outputs = some s := by
  induction outputs with
  | nil => exact fun h => h
  | cons output rest ih =>
    intro sum h
    unfold validateOutputs at h
    unfold sumOutputs
    split at h
    · cases h
    · split at h
      · cases h
      · split at h
        · cases h
        · rename_i hfit
          rw [if_neg hfit]
          exact ih h

theorem validate_outputs {tx : Transaction} (h : tx.validate = true) : ∃ sum, validateOutputs 0 tx.outputs = some sum := by
  unfold Transaction.validate at h
  split at h
  · cases h
  · split at h
    · cases h
    · split at h
      · cases h
      · exact ⟨_, ‹_›⟩

theorem toOption_eq_some {ε α : Type} {x : Except ε α} {a : α} (h : x.toOption = some a) : x = .ok a := by
  cases x with
  | error e => cases h
  | ok b => rw [Option.some.inj h]

theorem validateForMempool_iff (tx : Transaction) (u : UTXOSet) :
    validateForMempool tx u = .none ↔ validateTransactionAgainstUtxo tx u = true := by
  unfold validateForMempool validateTransactionAgainstUtxo
  cases hvalid : tx.validate with
  | false => simp
  | true =>
    rw [if_neg (by simp), if_neg (by simp)]
    obtain ⟨outputSum, houtputs⟩ := validate_outputs hvalid
    have hmempool := mempoolOutputs_toOption tx.outputs 0
    rw [houtputs] at hmempool
    rw [toOption_eq_some hmempool, sumOutputs_of_validateOutputs houtputs]
    have hinputs := mempoolInputs_toOption u tx.inputs ∅ 0
    cases hsum : mempoolInputs u ∅ 0 tx.inputs with
    | error reason =>
      rw [hsum] at hinputs
      rw [← hinputs]
      simpa [Except.toOption] using mempoolInputs_error hsum
    | ok inputSum =>
      rw [hsum] at hinputs
      rw [← hinputs]
      dsimp only [Except.toOption]
      rw [decide_eq_true_iff, ge_iff_le]
      by_cases hless : inputSum < outputSum
      · rw [if_pos hless]
        exact ⟨fun h => (by cases h), fun h => absurd hless (UInt64.not_lt.mpr h)⟩
      · rw [if_neg hless]
        exact ⟨fun _ => UInt64.not_lt.mp hless, fun _ => rfl⟩

theorem Balanced.validates {tx : Transaction} {u : UTXOSet} (h : Balanced tx u) :
    validateTransactionAgainstUtxo tx u = true := by
  obtain ⟨inputSum, hin, hinput⟩ := h.inputSums tx.inputs.length
  obtain ⟨outputSum, hout, houtput⟩ := h.outputSums tx.outputs.length
  have hpoints : tx.points.take tx.inputs.length = tx.points := by
    rw [Transaction.points, List.take_of_length_le (by simp)]
  rw [List.take_length] at hin hout houtput
  rw [hpoints] at hinput
  have hgain := h.noGain
  unfold validateTransactionAgainstUtxo
  rw [h.valid, if_neg (by simp), hin]
  dsimp only
  rw [hout]
  dsimp only
  rw [decide_eq_true_iff, ge_iff_le, UInt64.le_iff_toNat_le]
  omega

/-! ## What a pool refuses -/

/-- The reasons that are about values and the outputs they come from. -/
def MempoolRejectReason.byValue : MempoolRejectReason → Bool
  | .missingInput | .duplicateInput | .outputOverflow | .insufficientInputValue => true
  | _ => false

section
variable {K : Crypto} {pool after : Mempool K} {tx : Transaction} {u w : UTXOSet} {reason : MempoolRejectReason}

theorem accept_reason (h : pool.accept tx u = .ok (reason, after)) :
    reason = .duplicate ∨ reason = .mempoolFull ∨ reason = .transactionTooLarge ∨
      pool.validateAdmission tx u = .ok reason := by
  unfold Mempool.accept at h
  split at h
  · cases h
  · split at h
    · cases h
      exact Or.inl rfl
    · split at h
      · cases h
        exact Or.inr (Or.inl rfl)
      · split at h
        · cases h
        · split at h
          · cases h
            exact Or.inr (Or.inr (Or.inl rfl))
          · split at h
            · cases h
              exact Or.inr (Or.inl rfl)
            · obtain ⟨r, hadmit, h⟩ := bind_ok.mp h
              cases h
              exact Or.inr (Or.inr (Or.inr hadmit))

theorem validateAdmission_reason (h : pool.validateAdmission tx u = .ok reason)
    (hw : pool.buildEffectiveUtxo u = .ok (some w)) :
    reason = .doubleSpend ∨ reason ≠ .none ∧ validateForMempool tx w = reason ∨
      validateForMempool tx w = .none ∧ ∃ valid, validateTransactionWitness K tx w = .ok valid ∧
        reason = if !valid then .invalidTransaction else .none := by
  unfold Mempool.validateAdmission at h
  split at h
  · cases h
    exact Or.inl rfl
  · rw [hw] at h
    obtain ⟨effective, heffective, h⟩ := bind_ok.mp h
    cases heffective
    dsimp only at h
    split at h
    · rename_i hvalue
      cases h
      exact Or.inr (Or.inl ⟨hvalue, rfl⟩)
    · rename_i hvalue
      obtain ⟨valid, hvalid, h⟩ := bind_ok.mp h
      exact Or.inr (Or.inr ⟨not_not.mp hvalue, valid, hvalid, (pure_ok.mp h).symm⟩)

theorem admission_checks_agree (tx : Transaction) (u : UTXOSet) :
    (validateForMempool tx u = .none ↔ validateTransactionAgainstUtxo tx u = true) ∧
    (∀ pool after : Mempool K, pool.accept tx u = .ok (.none, after) →
      ∃ w, pool.buildEffectiveUtxo u = .ok (some w) ∧ validateTransactionAgainstUtxo tx w = true) ∧
    ∀ (pool after : Mempool K) (w : UTXOSet) (reason : MempoolRejectReason),
      pool.accept tx u = .ok (reason, after) → pool.buildEffectiveUtxo u = .ok (some w) →
      validateTransactionAgainstUtxo tx w = true →
      reason.byValue = false ∧ (reason = .invalidTransaction → validateTransactionWitness K tx w = .ok false) := by
  refine ⟨validateForMempool_iff tx u, ?_, ?_⟩
  · intro pool after h
    obtain ⟨hrefused, -⟩ | ⟨-, -, -, -, -, -, w, hw, -⟩ := accept_ok h
    · exact absurd rfl hrefused
    refine ⟨w, hw, (validateForMempool_iff tx w).mp ?_⟩
    obtain h | h | h | hadmit := accept_reason h
    · cases h
    · cases h
    · cases h
    obtain h | ⟨h, -⟩ | ⟨hvalue, -⟩ := validateAdmission_reason hadmit hw
    · cases h
    · exact absurd rfl h
    · exact hvalue
  · intro pool after w reason h hw hvalue
    rw [← validateForMempool_iff] at hvalue
    obtain rfl | rfl | rfl | hadmit := accept_reason h
    · simp [MempoolRejectReason.byValue]
    · simp [MempoolRejectReason.byValue]
    · simp [MempoolRejectReason.byValue]
    obtain rfl | ⟨hne, heq⟩ | ⟨-, valid, hvalid, rfl⟩ := validateAdmission_reason hadmit hw
    · simp [MempoolRejectReason.byValue]
    · exact absurd (heq.symm.trans hvalue) hne
    · cases valid with
      | false => exact ⟨rfl, fun _ => hvalid⟩
      | true => simp [MempoolRejectReason.byValue]

end

end Caesar
