import Caesar.FormatSound
import Caesar.Lib.Coins

/-!
# Transactions against a UTXO set

A transaction is an entry of a coin store (`entry`), and the loops that spend
its inputs and add its outputs are the store's operations. What the checks
establish is collected in `Balanced` and `Authorized`.
-/

namespace Caesar

open Codec

section
variable (K : Crypto)

/-! ## Ids -/

def Transaction.id (tx : Transaction) : Hash256 := K.sha256 tx.bytes

def Transaction.wid (tx : Transaction) : Hash256 := K.sha256 tx.fullBytes

theorem txid_ok (tx : Transaction) (h : Hash256) : tx.txid K = .ok h ↔ tx.BaseFits uint32Max ∧ h = tx.id K := by
  simp only [Transaction.txid, bind_ok, serializeBinary_ok, pure_ok, Transaction.id]
  refine ⟨?_, ?_⟩
  · intro hx
    obtain ⟨b, ⟨hf, rfl⟩, rfl⟩ := hx
    exact ⟨hf, rfl⟩
  · intro hx
    obtain ⟨hf, rfl⟩ := hx
    exact ⟨_, ⟨hf, rfl⟩, rfl⟩

theorem wtxid_ok (tx : Transaction) (h : Hash256) : tx.wtxid K = .ok h ↔ tx.Fits uint32Max ∧ h = tx.wid K := by
  simp only [Transaction.wtxid, bind_ok, serializeFullBinary_ok, pure_ok, Transaction.wid]
  refine ⟨?_, ?_⟩
  · intro hx
    obtain ⟨b, ⟨hf, rfl⟩, rfl⟩ := hx
    exact ⟨hf, rfl⟩
  · intro hx
    obtain ⟨hf, rfl⟩ := hx
    exact ⟨_, ⟨hf, rfl⟩, rfl⟩

/-! ## Entries -/

def outputsAt (txid : Hash256) (i : Nat) (outputs : List TransactionOutput) : List (OutPoint × TransactionOutput) :=
  (outputs.zipIdx i).map fun p => (⟨txid, UInt32.ofNat p.2⟩, p.1)

/-- A coinbase spends nothing: its one input only marks it. -/
def Transaction.entry (tx : Transaction) : Coins.Entry Hash256 OutPoint TransactionOutput where
  id := tx.id K
  inputs := if isCoinbaseTransaction tx then [] else tx.points
  outputs := outputsAt (tx.id K) 0 tx.outputs

end

theorem outputsAt_cons (txid : Hash256) (i : Nat) (output : TransactionOutput) (rest : List TransactionOutput) :
    outputsAt txid i (output :: rest) = (⟨txid, UInt32.ofNat i⟩, output) :: outputsAt txid (i + 1) rest := by
  simp [outputsAt]

theorem outputsAt_values (txid : Hash256) (i : Nat) (outputs : List TransactionOutput) (f : TransactionOutput → Nat) :
    (outputsAt txid i outputs).map (fun p => f p.2) = outputs.map f := by
  induction outputs generalizing i with
  | nil => rfl
  | cons o os ih => simp [outputsAt_cons, ih]

theorem mem_outputsAt {txid : Hash256} {i : Nat} {outputs : List TransactionOutput} {p : OutPoint}
    (h : p ∈ (outputsAt txid i outputs).map Prod.fst) : p.txid = txid := by
  simp only [outputsAt, List.map_map, List.mem_map, Function.comp] at h
  obtain ⟨q, -, rfl⟩ := h
  rfl

theorem outputsAt_nodup {txid : Hash256} : ∀ {i : Nat} {outputs : List TransactionOutput},
    i + outputs.length ≤ 2 ^ 32 → ((outputsAt txid i outputs).map Prod.fst).Nodup
  | _, [], _ => List.nodup_nil
  | i, o :: os, h => by
    simp only [List.length_cons] at h
    rw [outputsAt_cons, List.map_cons, List.nodup_cons]
    refine ⟨?_, outputsAt_nodup (by omega)⟩
    intro hm
    simp only [outputsAt, List.map_map, List.mem_map, Function.comp] at hm
    obtain ⟨⟨o', j⟩, hj, he⟩ := hm
    obtain ⟨hij, hlt, -⟩ := List.mem_zipIdx hj
    simp only [OutPoint.mk.injEq, true_and] at he
    have := congrArg UInt32.toNat he
    simp only [UInt32.toNat_ofNat'] at this
    omega

theorem spendInputs_eq : ∀ (inputs : List TransactionInput) (u : UTXOSet),
    spendInputs inputs u = Coins.spendAll (inputs.map TransactionInput.point) u
  | [], _ => rfl
  | input :: rest, u => by
    simp only [spendInputs, UTXOSet.spend, List.map_cons, Coins.spendAll]
    split
    · exact spendInputs_eq rest _
    · rfl

theorem addOutputs_eq {txid : Hash256} : ∀ {i : Nat} {outputs : List TransactionOutput} {u : UTXOSet},
    i + outputs.length ≤ 2 ^ 32 → addOutputs txid i outputs u = Coins.addAll (outputsAt txid i outputs) u
  | _, [], _, _ => rfl
  | i, o :: os, u, h => by
    simp only [List.length_cons] at h
    have hi : ¬ i > uint32Max := by unfold uint32Max; omega
    simp only [addOutputs, hi, ite_false, UTXOSet.add, outputsAt_cons, Coins.addAll]
    split
    · rfl
    · exact addOutputs_eq (by omega)

/-! ## Checked sums -/

def amounts (outputs : List TransactionOutput) : Nat := (outputs.map fun output => output.amount.toNat).sum

def amountAt (u : UTXOSet) (point : OutPoint) : Nat := Coins.valueAt (fun output => output.amount.toNat) u point

theorem add_within {limit sum amount : UInt64} (hle : sum.toNat ≤ limit.toNat) (h : ¬ amount > limit - sum) :
    (sum + amount).toNat = sum.toNat + amount.toNat ∧ (sum + amount).toNat ≤ limit.toNat := by
  have hl := limit.toNat_lt
  rw [gt_iff_lt, UInt64.lt_iff_toNat_lt, UInt64.toNat_sub_of_le _ _ (UInt64.le_iff_toNat_le.mpr hle)] at h
  rw [UInt64.toNat_add]
  omega

theorem overflows_iff {amount sum : UInt64} : amount > uint64Max - sum ↔ 2 ^ 64 ≤ sum.toNat + amount.toNat := by
  have hs := sum.toNat_lt
  have hmax : uint64Max.toNat = 2 ^ 64 - 1 := rfl
  have hle : sum ≤ uint64Max := UInt64.le_iff_toNat_le.mpr (by omega)
  rw [gt_iff_lt, UInt64.lt_iff_toNat_lt, UInt64.toNat_sub_of_le _ _ hle]
  omega

theorem add_guard {amount sum : UInt64} (h : ¬ amount > uint64Max - sum) :
    (sum + amount).toNat = sum.toNat + amount.toNat := by
  rw [UInt64.toNat_add, Nat.mod_eq_of_lt (Nat.lt_of_not_le (overflows_iff.not.mp h))]

theorem validateOutputs_some : ∀ {outputs : List TransactionOutput} {sum s : UInt64},
    validateOutputs sum outputs = some s →
      (∀ o ∈ outputs, o.amount ≠ 0 ∧ o.recipient ≠ []) ∧ s.toNat = sum.toNat + amounts outputs
  | [], sum, s, h => by
    simp only [validateOutputs, Option.some.injEq] at h
    subst h
    simp [amounts]
  | o :: os, sum, s, h => by
    simp only [validateOutputs] at h
    split at h
    · cases h
    · rename_i h0
      split at h
      · cases h
      · rename_i hr
        split at h
        · cases h
        · rename_i hg
          obtain ⟨hall, hs⟩ := validateOutputs_some h
          rw [add_guard hg] at hs
          refine ⟨?_, by rw [hs]; simp [amounts]; omega⟩
          intro o' ho'
          rcases List.mem_cons.mp ho' with rfl | ho'
          · exact ⟨h0, by simpa using hr⟩
          · exact hall o' ho'

theorem validate_true {tx : Transaction} (h : tx.validate = true) :
    tx.inputs ≠ [] ∧ tx.outputs ≠ [] ∧ ∀ o ∈ tx.outputs, o.amount ≠ 0 ∧ o.recipient ≠ [] := by
  unfold Transaction.validate at h
  split at h
  · cases h
  · split at h
    · cases h
    · rename_i he
      simp only [Bool.or_eq_true, List.isEmpty_iff, not_or] at he
      split at h
      · cases h
      · rename_i hs
        exact ⟨he.1, he.2, (validateOutputs_some hs).1⟩

theorem sumOutputs_some : ∀ {outputs : List TransactionOutput} {sum s : UInt64},
    sumOutputs sum outputs = some s → ∀ k, ∃ s', sumOutputs sum (outputs.take k) = some s' ∧
      s'.toNat = sum.toNat + amounts (outputs.take k)
  | [], sum, s, _, k => ⟨sum, by simp [sumOutputs, amounts]⟩
  | o :: os, sum, s, _, 0 => ⟨sum, by simp [sumOutputs, amounts]⟩
  | o :: os, sum, s, h, k + 1 => by
    simp only [sumOutputs] at h
    split at h
    · cases h
    · rename_i hg
      obtain ⟨s', hs', he⟩ := sumOutputs_some h k
      refine ⟨s', by simp only [List.take_succ_cons, sumOutputs, hg, ite_false, hs'], ?_⟩
      rw [he, add_guard hg]
      simp [amounts]; omega

theorem sumInputs_some {u : UTXOSet} : ∀ {inputs : List TransactionInput} {seen : Finset OutPoint} {sum s : UInt64},
    sumInputs u seen sum inputs = some s →
      (inputs.map TransactionInput.point).Nodup ∧
      (∀ input ∈ inputs, input.point ∉ seen ∧ ∃ previous, u.lookup input.point = some previous) ∧
      ∀ k, ∃ s', sumInputs u seen sum (inputs.take k) = some s' ∧
        s'.toNat = sum.toNat + ((inputs.take k).map fun input => amountAt u input.point).sum
  | [], seen, sum, s, _ => ⟨List.nodup_nil, by simp, fun k => ⟨sum, by simp [sumInputs]⟩⟩
  | input :: rest, seen, sum, s, h => by
    simp only [sumInputs] at h
    split at h
    · cases h
    · rename_i hseen
      split at h
      · cases h
      · rename_i previous hget
        split at h
        · cases h
        · rename_i hg
          obtain ⟨hn, hall, hk⟩ := sumInputs_some h
          have hv : amountAt u input.point = previous.amount.toNat := by
            simp only [UTXOSet.get] at hget
            simp [amountAt, Coins.valueAt, hget]
          refine ⟨?_, ?_, ?_⟩
          · rw [List.map_cons, List.nodup_cons]
            refine ⟨fun hm => ?_, hn⟩
            obtain ⟨i, hi, he⟩ := List.mem_map.mp hm
            exact (hall i hi).1 (by rw [he]; exact Finset.mem_insert_self ..)
          · intro i hi
            rcases List.mem_cons.mp hi with rfl | hi
            · exact ⟨hseen, previous, hget⟩
            · exact ⟨fun hm => (hall i hi).1 (Finset.mem_insert_of_mem hm), (hall i hi).2⟩
          · intro k
            cases k with
            | zero => exact ⟨sum, by simp [sumInputs]⟩
            | succ k =>
              obtain ⟨s', hs', he⟩ := hk k
              refine ⟨s', ?_, ?_⟩
              · simp only [List.take_succ_cons, sumInputs, hseen, ite_false, hget, hg, hs']
              · rw [he, add_guard hg, List.take_succ_cons, List.map_cons, List.sum_cons, hv]
                omega

/-- What `validate_transaction_against_utxo` establishes. -/
structure Balanced (tx : Transaction) (u : UTXOSet) : Prop where
  valid : tx.validate = true
  nodup : tx.points.Nodup
  present : ∀ point ∈ tx.points, point ∈ u
  inputSums : ∀ k, ∃ s, sumInputs u ∅ 0 (tx.inputs.take k) = some s ∧
    s.toNat = ((tx.points.take k).map (amountAt u)).sum
  outputSums : ∀ k, ∃ s, sumOutputs 0 (tx.outputs.take k) = some s ∧ s.toNat = amounts (tx.outputs.take k)
  noGain : amounts tx.outputs ≤ (tx.points.map (amountAt u)).sum

theorem balanced_of_validate {tx : Transaction} {u : UTXOSet} (h : validateTransactionAgainstUtxo tx u = true) :
    Balanced tx u := by
  unfold validateTransactionAgainstUtxo at h
  split at h
  · cases h
  · rename_i hv
    split at h
    · cases h
    · rename_i inputSum hi
      split at h
      · cases h
      · rename_i outputSum ho
        obtain ⟨hn, hall, hk⟩ := sumInputs_some hi
        have hk' : ∀ k, ∃ s, sumInputs u ∅ 0 (tx.inputs.take k) = some s ∧
            s.toNat = ((tx.points.take k).map (amountAt u)).sum := by
          intro k
          obtain ⟨s, hs, he⟩ := hk k
          refine ⟨s, hs, ?_⟩
          rw [he, Transaction.points, ← List.map_take, List.map_map]
          simp [Function.comp_def]
        have ho' : ∀ k, ∃ s, sumOutputs 0 (tx.outputs.take k) = some s ∧ s.toNat = amounts (tx.outputs.take k) := by
          intro k
          obtain ⟨s, hs, he⟩ := sumOutputs_some ho k
          exact ⟨s, hs, by rw [he]; simp⟩
        refine ⟨by simpa using hv, hn, ?_, hk', ho', ?_⟩
        · intro point hp
          obtain ⟨input, hin, rfl⟩ := List.mem_map.mp hp
          exact Finmap.mem_iff.mpr (hall input hin).2
        · obtain ⟨s₁, hs₁, he₁⟩ := hk' tx.inputs.length
          obtain ⟨s₂, hs₂, he₂⟩ := ho' tx.outputs.length
          rw [List.take_length, hi, Option.some.injEq] at hs₁
          rw [List.take_length, ho, Option.some.injEq] at hs₂
          rw [List.take_length] at he₂
          rw [show tx.inputs.length = tx.points.length by simp [Transaction.points], List.take_length] at he₁
          subst hs₁ hs₂
          have := UInt64.le_iff_toNat_le.mp (of_decide_eq_true h)
          omega

/-! ## Coinbases -/

theorem coinbase_true {tx : Transaction} {height : UInt64} (h : validateCoinbaseTransaction tx height = true) :
    isCoinbaseTransaction tx = true ∧ height ≠ 0 ∧
      ∃ output, tx.outputs = [output] ∧ output.amount = blockSubsidy height ∧ output.recipient ≠ [] := by
  unfold validateCoinbaseTransaction at h
  split at h
  · cases h
  · rename_i hc
    split at h
    · cases h
    · rename_i hh
      split at h
      · rename_i output ho
        split at h
        · cases h
        · rename_i ha
          split at h
          · cases h
          · rename_i hr
            exact ⟨by simpa using hc, hh, output, ho, by simpa using ha, by simpa using hr⟩
      · cases h

theorem position_true {txs : List Transaction} {height : UInt64}
    (h : validateCoinbasePositionAndReward txs height = true) : ∃ coinbase rest, txs = coinbase :: rest ∧
      validateCoinbaseTransaction coinbase height = true ∧ ∀ tx ∈ rest, isCoinbaseTransaction tx = false := by
  cases txs with
  | nil => cases h
  | cons coinbase rest =>
    simp only [validateCoinbasePositionAndReward] at h
    split at h
    · cases h
    · split at h
      · cases h
      · rename_i hv
        refine ⟨coinbase, rest, rfl, by simpa using hv, fun tx htx => ?_⟩
        simpa using List.all_eq_true.mp h tx htx

/-! ## Witnesses -/

section
variable {K : Crypto}

/-- Input `i` is unlocked by witness `item`: the key hashes to the recipient and signs the input. -/
structure Unlocks (K : Crypto) (tx : Transaction) (u : UTXOSet) (i : Nat) (input : TransactionInput)
    (item : TransactionWitness) : Prop where
  owner : ∃ previous, u.lookup input.point = some previous ∧
    previous.recipient = addressFromPublicKey K item.publicKey
  signed : ∃ key message, publicKeyFromHex K item.publicKey = .ok key ∧
    transactionSigningMessage tx i = .ok message ∧ verifySignature K key message item.signature = true

/-- What `validate_transaction_witness` establishes. -/
structure Authorized (K : Crypto) (tx : Transaction) (u : UTXOSet) : Prop extends Balanced tx u where
  length_eq : tx.witness.length = tx.inputs.length
  unlocks : ∀ i input item, tx.inputs[i]? = some input → tx.witness[i]? = some item → Unlocks K tx u i input item

theorem verifyInput_true {tx : Transaction} {i : Nat} {key : PKey} {signature : Bytes}
    (h : verifyTransactionInputSignature K tx i key signature = .ok true) :
    ∃ message, transactionSigningMessage tx i = .ok message ∧ verifySignature K key message signature = true := by
  unfold verifyTransactionInputSignature at h
  split at h
  · simp at h
  · obtain ⟨message, hm, hv⟩ := bind_ok.mp h
    exact ⟨message, hm, by simpa using hv⟩

theorem ownership_true {previous : TransactionOutput} {publicKey : Bytes}
    (h : verifyUtxoOwnership K previous publicKey = true) :
    previous.recipient = addressFromPublicKey K publicKey := by
  unfold verifyUtxoOwnership at h
  split at h
  · cases h
  · exact of_decide_eq_true h

theorem signingMessage_ok {tx : Transaction} {i : Nat} {message : Bytes} :
    transactionSigningMessage tx i = .ok message ↔
      i < tx.inputs.length ∧ tx.BaseFits uint32Max ∧
        message = stringBytes signingDomain ++ tx.bytes ++ writeSize i := by
  have hdomain : writeString signingDomain = .ok (stringBytes signingDomain) :=
    writeString_ok.mpr ⟨by decide, rfl⟩
  unfold transactionSigningMessage
  by_cases hi : i ≥ tx.inputs.length
  · simp [hi]
  · rw [if_neg hi]
    simp only [bind_ok, hdomain, Except.ok.injEq, exists_eq_left', serializeBinary_ok]
    constructor
    · intro ⟨base, ⟨hfits, hbase⟩, h⟩
      have hmax : ¬ i > uint32Max := by
        have := hfits.inputs
        omega
      rw [if_neg hmax, pure_ok, hbase] at h
      exact ⟨Nat.not_le.mp hi, hfits, h.symm⟩
    · intro ⟨_, hfits, h⟩
      have hmax : ¬ i > uint32Max := by
        have := hfits.inputs
        omega
      refine ⟨tx.bytes, ⟨hfits, rfl⟩, ?_⟩
      rw [if_neg hmax, pure_ok, h]

theorem verifyInputs_true {tx : Transaction} {u : UTXOSet} :
    ∀ {i : Nat} {items : List (TransactionInput × PKey × Bytes × Bytes)}, verifyInputs K tx u i items = .ok true →
      ∀ j input key data signature, items[j]? = some (input, key, data, signature) →
        (∃ previous, u.lookup input.point = some previous ∧ previous.recipient = addressFromPublicKey K data) ∧
        ∃ message, transactionSigningMessage tx (i + j) = .ok message ∧ verifySignature K key message signature = true
  | _, [], _, j, _, _, _, _, hj => by simp at hj
  | i, (input, key, data, signature) :: rest, h, j, input', key', data', signature', hj => by
    simp only [verifyInputs] at h
    split at h
    · simp at h
    · rename_i previous hget
      split at h
      · simp at h
      · rename_i hown
        obtain ⟨valid, hv, h⟩ := bind_ok.mp h
        split at h
        · simp at h
        · rename_i hvt
          have hvt : valid = true := by simpa using hvt
          subst hvt
          cases j with
          | zero =>
            simp only [List.getElem?_cons_zero, Option.some.injEq, Prod.mk.injEq] at hj
            obtain ⟨rfl, rfl, rfl, rfl⟩ := hj
            exact ⟨⟨previous, hget, ownership_true (by simpa using hown)⟩, verifyInput_true hv⟩
          | succ j =>
            rw [List.getElem?_cons_succ] at hj
            have := verifyInputs_true h j _ _ _ _ hj
            rwa [show i + 1 + j = i + (j + 1) by omega] at this

theorem witnessKeys_some : ∀ {items : List TransactionWitness} {keys : List PKey}, witnessKeys K items = some keys →
    keys.length = items.length ∧
      ∀ (i : Nat) (item : TransactionWitness), items[i]? = some item → ∃ key, keys[i]? = some key ∧ publicKeyFromHex K item.publicKey = .ok key
  | [], keys, h => by
    simp only [witnessKeys, Option.some.injEq] at h
    subst h
    exact ⟨rfl, by simp⟩
  | item :: rest, keys, h => by
    simp only [witnessKeys] at h
    split at h
    · cases h
    · split at h
      · cases h
      · rename_i key hkey
        obtain ⟨keys', hk', rfl⟩ := Option.map_eq_some_iff.mp h
        obtain ⟨hl, hall⟩ := witnessKeys_some hk'
        refine ⟨by simp [hl], fun i item' hi => ?_⟩
        cases i with
        | zero =>
          simp only [List.getElem?_cons_zero, Option.some.injEq] at hi
          subst hi
          exact ⟨key, rfl, hkey⟩
        | succ i =>
          rw [List.getElem?_cons_succ] at hi ⊢
          exact hall i item' hi

theorem authorized_of_validate {tx : Transaction} {u : UTXOSet} (h : validateTransactionWitness K tx u = .ok true) :
    Authorized K tx u := by
  unfold validateTransactionWitness at h
  split at h
  · simp at h
  · split at h
    · simp at h
    · rename_i hlen
      have hlen : tx.witness.length = tx.inputs.length := by simpa using hlen
      split at h
      · simp at h
      · rename_i keys hkeys
        obtain ⟨hkl, hkall⟩ := witnessKeys_some hkeys
        unfold validateSignedTransactionOwnership at h
        simp only [List.length_map, hkl, hlen, ne_eq, not_true_eq_false, ite_false] at h
        split at h
        · simp at h
        · split at h
          · simp at h
          · rename_i hutxo
            refine ⟨balanced_of_validate (by simpa using hutxo), hlen, ?_⟩
            intro i input item hin hit
            obtain ⟨key, hk, hhex⟩ := hkall i item hit
            have hzip : (tx.inputs.zip (keys.zip ((tx.witness.map (·.publicKey)).zip (tx.witness.map (·.signature)))))[i]? =
                some (input, key, item.publicKey, item.signature) := by
              simp [List.getElem?_zip_eq_some, hin, hk, hit]
            obtain ⟨hown, message, hm, hv⟩ := verifyInputs_true h i _ _ _ _ hzip
            rw [Nat.zero_add] at hm
            exact ⟨hown, key, message, hhex, hm, hv⟩

end

end Caesar
