import Caesar.UtxoSound

/-!
# What the basic checks of a block establish
-/

namespace Caesar

open Codec

section
variable {K : Crypto}

theorem validateRoots_true {block : Block} (h : block.validateRoots K = .ok true) :
    (∀ tx ∈ block.transactions, tx.Fits uint32Max) ∧
      block.header.merkleRoot = merkleRoot K (block.transactions.map (Transaction.id K)) ∧
      block.header.witnessRoot = merkleRoot K (block.transactions.map (Transaction.wid K)) := by
  obtain ⟨merkle, hm, h⟩ := bind_ok.mp h
  split at h
  · rename_i hmt
    subst hmt
    simp only [Block.validateMerkleRoot, Block.calculateMerkleRoot, bind_ok, pure_ok,
      mapM_ok (txid_ok K)] at hm
    simp only [Block.validateWitnessRoot, Block.calculateWitnessRoot, bind_ok, pure_ok,
      mapM_ok (wtxid_ok K)] at h
    obtain ⟨_, ⟨_, ⟨-, rfl⟩, rfl⟩, hm⟩ := hm
    obtain ⟨_, ⟨_, ⟨hf, rfl⟩, rfl⟩, h⟩ := h
    exact ⟨hf, of_decide_eq_true hm, of_decide_eq_true h⟩
  · simp at h

theorem validatePow_difficulty {block : Block} (h : block.validatePow K = true) :
    block.header.difficulty.toNat ≤ 256 := by
  unfold Block.validatePow validatePow powMeetsDifficulty at h
  split at h
  · cases h
  · rename_i hd
    rw [gt_iff_lt, UInt32.lt_iff_toNat_lt] at hd
    exact Nat.not_lt.mp hd

theorem basic_difficulty {block : Block} (h : block.validateBasic K = .ok true) :
    block.header.difficulty.toNat ≤ 256 := by
  unfold Block.validateBasic at h
  split at h
  · simp at h
  · split at h
    · simp at h
    · rename_i hp
      exact validatePow_difficulty (by simpa using hp)

theorem updateMerkleRoot_ok {block updated : Block} (h : block.updateMerkleRoot K = .ok updated) : ∃ root witness,
    block.calculateMerkleRoot K = .ok root ∧ block.calculateWitnessRoot K = .ok witness ∧
    updated = { block with header := { block.header with merkleRoot := root, witnessRoot := witness } } := by
  obtain ⟨root, hroot, h⟩ := bind_ok.mp h
  obtain ⟨witness, hwitness, h⟩ := bind_ok.mp h
  exact ⟨root, witness, hroot, hwitness, (pure_ok.mp h).symm⟩

theorem basic_roots {block : Block} (h : block.validateBasic K = .ok true) : block.validateRoots K = .ok true := by
  unfold Block.validateBasic at h
  repeat' split at h
  all_goals first | exact h | simp at h

/-- A transaction of a block after genesis: one input or more, and one output or more, all with a recipient. -/
def Transaction.Shaped (tx : Transaction) : Prop :=
  tx.inputs ≠ [] ∧ ∃ output ∈ tx.outputs, output.recipient ≠ []

theorem shaped_of_validate {tx : Transaction} (h : tx.validate = true) : tx.Shaped := by
  obtain ⟨hi, ho, hall⟩ := validate_true h
  obtain ⟨output, hmem⟩ := List.exists_mem_of_ne_nil _ ho
  exact ⟨hi, output, hmem, (hall output hmem).2⟩

theorem coinbase_inputs {tx : Transaction} (h : isCoinbaseTransaction tx = true) : tx.inputs ≠ [] := by
  intro he
  simp [isCoinbaseTransaction, he] at h

theorem basic_transactions {block : Block} (h : block.validateBasic K = .ok true) (hh : block.header.height ≠ 0) :
    validateCoinbasePositionAndReward block.transactions block.header.height = true ∧
      ∀ tx ∈ block.transactions.tail, tx.validate = true := by
  unfold Block.validateBasic at h
  rw [if_neg hh] at h
  split at h
  · simp at h
  · split at h
    · simp at h
    · split at h
      · simp at h
      · rename_i hcoin
        split at h
        · simp at h
        · rename_i htail
          exact ⟨by simpa using hcoin, by simpa using htail⟩

theorem basic_shaped {block : Block} (h : block.validateBasic K = .ok true) (hh : block.header.height ≠ 0) :
    block.transactions ≠ [] ∧ ∀ tx ∈ block.transactions, tx.Shaped := by
  obtain ⟨hcoin, htail⟩ := basic_transactions h hh
  obtain ⟨coinbase, rest, hb, hv, -⟩ := position_true hcoin
  obtain ⟨hc, -, output, ho, -, hr⟩ := coinbase_true hv
  rw [hb] at htail ⊢
  refine ⟨by simp, fun tx htx => ?_⟩
  rcases List.mem_cons.mp htx with rfl | htx
  · exact ⟨coinbase_inputs hc, output, by simp [ho], hr⟩
  · exact shaped_of_validate (htail tx htx)

/-! ## Sizes -/

theorem inputs_bytes_length (inputs : List TransactionInput) :
    (inputs.flatMap TransactionInput.serializeBinary).length = 36 * inputs.length := by
  induction inputs with
  | nil => rfl
  | cons input rest ih =>
    have := input.previousTxid.2
    simp only [List.flatMap_cons, List.length_append, ih, TransactionInput.serializeBinary, this, writeU32_length,
      List.length_cons]
    omega

theorem output_bytes_length (output : TransactionOutput) : output.bytes.length = 12 + output.recipient.length := by
  simp only [TransactionOutput.bytes, stringBytes, List.length_append, writeU64_length, writeSize_length]
  omega

/-- No transaction of a block after genesis is as short as two hashes. -/
theorem Transaction.Shaped.bytes_length {tx : Transaction} (h : tx.Shaped) : 64 < tx.bytes.length := by
  obtain ⟨hin, output, hmem, hr⟩ := h
  have hlen := List.length_pos_of_ne_nil hin
  have hrec := List.length_pos_of_ne_nil hr
  have hout : output.bytes.length ≤ (tx.outputs.flatMap TransactionOutput.bytes).length := by
    obtain ⟨l, r, hlr⟩ := List.append_of_mem hmem
    rw [hlr]
    simp only [List.flatMap_append, List.flatMap_cons, List.length_append]
    omega
  rw [output_bytes_length] at hout
  simp only [Transaction.bytes, List.length_append, writeU32_length, stringBytes, writeSize_length, inputs_bytes_length]
  omega

theorem Transaction.Shaped.fullBytes_length {tx : Transaction} (h : tx.Shaped) : 64 < tx.fullBytes.length := by
  have := h.bytes_length
  simp only [Transaction.fullBytes, List.length_append]
  omega

end

end Caesar
