import Caesar.Block

/-!
# The binary formats

Every writer is a total encoding guarded by size limits (`serializeBinary_ok`,
`serializeFullBinary_ok`), and every decoder accepts exactly the encodings of
the values within its own limits (`deserializeFull_ok`). Encodings can be told
apart, so the strings that are hashed determine what they encode.
-/

namespace Caesar

open Codec

/-! ## Results -/

section
variable {α β : Type}

theorem bind_ok {x : Result α} {f : α → Result β} {r : β} : (x >>= f) = .ok r ↔ ∃ a, x = .ok a ∧ f a = .ok r := by
  cases x with
  | error e => simp [bind, Except.bind]
  | ok a => simp [bind, Except.bind]

@[simp] theorem pure_ok {a b : α} : (pure a : Result α) = .ok b ↔ a = b := by
  simp [pure, Except.pure]

@[simp] theorem fail_ne_ok {what : String} {a : α} : (fail what : Result α) ≠ .ok a := by
  simp [fail]

theorem ite_error_ok {c : Prop} [Decidable c] {what : String} {x : Result α} {r : α} :
    (if c then fail what else x) = .ok r ↔ ¬ c ∧ x = .ok r := by
  by_cases h : c <;> simp [h]

theorem mapM_ok {f : α → Result β} {P : α → Prop} {g : α → β} (hf : ∀ a b, f a = .ok b ↔ P a ∧ b = g a) :
    ∀ {l : List α} {r : List β}, l.mapM f = .ok r ↔ (∀ a ∈ l, P a) ∧ r = l.map g
  | [], r => by simp
  | a :: l, r => by
    simp only [List.mapM_cons, bind_ok, hf, mapM_ok hf, pure_ok, List.mem_cons, List.map_cons, forall_eq_or_imp]
    refine ⟨?_, ?_⟩
    · intro hx
      obtain ⟨b, ⟨ha, rfl⟩, bs, ⟨hl, rfl⟩, rfl⟩ := hx
      exact ⟨⟨ha, hl⟩, rfl⟩
    · intro hx
      obtain ⟨⟨ha, hl⟩, rfl⟩ := hx
      exact ⟨g a, ⟨ha, rfl⟩, l.map g, ⟨hl, rfl⟩, rfl⟩

end

theorem bytesToHex_length (bytes : Bytes) : (bytesToHex bytes).length = 2 * bytes.length := by
  rw [bytesToHex, List.length_flatMap]
  simp [Nat.mul_comm]

/-! ## Integers, hashes and strings -/

@[simp] theorem writeU32_length (v : UInt32) : (writeU32 v).length = 4 := by simp [writeU32]

@[simp] theorem writeU64_length (v : UInt64) : (writeU64 v).length = 8 := by simp [writeU64]

@[simp] theorem writeSize_length (n : Nat) : (writeSize n).length = 4 := by simp [writeSize]

theorem readRaw_ok {n : Nat} {s b rest : Bytes} : readRaw n s = .ok (b, rest) ↔ b.length = n ∧ s = b ++ rest := by
  unfold readRaw
  rw [ite_error_ok]
  simp only [Except.ok.injEq, Prod.mk.injEq, Nat.not_lt]
  refine ⟨?_, ?_⟩
  · intro hx
    obtain ⟨hn, rfl, rfl⟩ := hx
    exact ⟨by simp [hn], (List.take_append_drop n s).symm⟩
  · intro hx
    obtain ⟨rfl, rfl⟩ := hx
    simp

theorem readU32_ok {s rest : Bytes} {v : UInt32} : readU32 s = .ok (v, rest) ↔ s = writeU32 v ++ rest := by
  simp only [readU32, andThen_ok, readRaw_ok, Except.ok.injEq, Prod.mk.injEq]
  refine ⟨?_, ?_⟩
  · intro hx
    obtain ⟨b, t, ⟨hb, rfl⟩, rfl, rfl⟩ := hx
    have hlt := leNat_lt b
    rw [hb] at hlt
    rw [writeU32, UInt32.toNat_ofNat', Nat.mod_eq_of_lt (by omega), ← hb, leBytes_leNat]
  · intro hx
    subst hx
    refine ⟨writeU32 v, rest, ⟨by simp, rfl⟩, ?_, rfl⟩
    have hv := v.toNat_lt
    rw [writeU32, leNat_leBytes 4 _ (by omega), UInt32.ofNat_toNat]

theorem readU64_ok {s rest : Bytes} {v : UInt64} : readU64 s = .ok (v, rest) ↔ s = writeU64 v ++ rest := by
  simp only [readU64, andThen_ok, readRaw_ok, Except.ok.injEq, Prod.mk.injEq]
  refine ⟨?_, ?_⟩
  · intro hx
    obtain ⟨b, t, ⟨hb, rfl⟩, rfl, rfl⟩ := hx
    have hlt := leNat_lt b
    rw [hb] at hlt
    rw [writeU64, UInt64.toNat_ofNat', Nat.mod_eq_of_lt (by omega), ← hb, leBytes_leNat]
  · intro hx
    subst hx
    refine ⟨writeU64 v, rest, ⟨by simp, rfl⟩, ?_, rfl⟩
    have hv := v.toNat_lt
    rw [writeU64, leNat_leBytes 8 _ (by omega), UInt64.ofNat_toNat]

theorem readHash_ok {s rest : Bytes} {h : Hash256} : readHash s = .ok (h, rest) ↔ s = h.1 ++ rest := by
  unfold readHash
  split
  · rename_i hlt
    simp only [fail_ne_ok, false_iff]
    intro hx
    subst hx
    have := h.2
    simp at hlt; omega
  · rename_i hle
    simp only [Except.ok.injEq, Prod.mk.injEq]
    refine ⟨?_, ?_⟩
    · intro hx
      obtain ⟨rfl, rfl⟩ := hx
      exact (List.take_append_drop 32 s).symm
    · intro hx
      subst hx
      refine ⟨Subtype.ext ?_, ?_⟩
      · exact List.take_left' h.2
      · exact List.drop_left' h.2

theorem readCount_ok {limit : Nat} {what : String} {s rest : Bytes} {n : Nat} (hl : limit ≤ uint32Max) :
    readCount limit what s = .ok (n, rest) ↔ n ≤ limit ∧ s = writeSize n ++ rest := by
  unfold uint32Max at hl
  simp only [readCount, andThen_ok, readU32_ok, ite_error_ok, Except.ok.injEq, Prod.mk.injEq, Nat.not_lt]
  refine ⟨?_, ?_⟩
  · intro hx
    obtain ⟨v, t, rfl, hv, rfl, rfl⟩ := hx
    exact ⟨hv, by rw [writeSize, UInt32.ofNat_toNat]⟩
  · intro hx
    obtain ⟨hn, rfl⟩ := hx
    have he : (UInt32.ofNat n).toNat = n := by rw [UInt32.toNat_ofNat']; omega
    exact ⟨UInt32.ofNat n, rest, rfl, by omega, he, rfl⟩

def stringBytes (value : Bytes) : Bytes := writeSize value.length ++ value

theorem writeString_ok {value b : Bytes} :
    writeString value = .ok b ↔ value.length ≤ uint32Max ∧ b = stringBytes value := by
  rw [writeString, ite_error_ok, Except.ok.injEq, Nat.not_lt, eq_comm, stringBytes]

theorem readString_ok {s rest value : Bytes} :
    readString s = .ok (value, rest) ↔ value.length ≤ uint32Max ∧ s = stringBytes value ++ rest := by
  simp only [readString, andThen_ok, readU32_ok, ite_error_ok, Except.ok.injEq, Prod.mk.injEq, Nat.not_lt]
  refine ⟨?_, ?_⟩
  · intro hx
    obtain ⟨v, t, rfl, hv, rfl, rfl⟩ := hx
    have hlen : (t.take v.toNat).length = v.toNat := by simp [hv]
    have hlt := v.toNat_lt
    refine ⟨by rw [hlen, uint32Max]; omega, ?_⟩
    rw [stringBytes, hlen, writeSize, UInt32.ofNat_toNat, List.append_assoc, List.take_append_drop]
  · intro hx
    obtain ⟨hl, rfl⟩ := hx
    unfold uint32Max at hl
    have he : (UInt32.ofNat value.length).toNat = value.length := by rw [UInt32.toNat_ofNat']; omega
    refine ⟨UInt32.ofNat value.length, value ++ rest, by simp [stringBytes, writeSize], ?_, ?_, ?_⟩ <;> simp [he]

theorem readAll_ok {α : Type} {d : Reader Error α} {what : String} {data : Bytes} {x : α} :
    readAll d what data = .ok x ↔ d data = .ok (x, []) := by
  simp only [readAll, bind_ok]
  refine ⟨?_, ?_⟩
  · intro hx
    obtain ⟨⟨y, rest⟩, hd, h⟩ := hx
    simp only at h
    split at h
    · rename_i hr
      rw [List.isEmpty_iff] at hr
      simp only [pure_ok] at h
      rw [hd, hr, h]
    · simp at h
  · intro hd
    exact ⟨(x, []), hd, by simp⟩

/-! ## Transactions -/

def TransactionOutput.bytes (output : TransactionOutput) : Bytes := writeU64 output.amount ++ stringBytes output.recipient

def TransactionWitness.bytes (item : TransactionWitness) : Bytes :=
  stringBytes item.publicKey ++ stringBytes item.signature

/-- The base form, which the txid hashes. -/
def Transaction.bytes (tx : Transaction) : Bytes :=
  writeU32 tx.version ++ stringBytes tx.coinbaseData ++
    (writeSize tx.inputs.length ++ tx.inputs.flatMap TransactionInput.serializeBinary) ++
    (writeSize tx.outputs.length ++ tx.outputs.flatMap TransactionOutput.bytes)

/-- The form with witnesses, which the wtxid hashes. -/
def Transaction.fullBytes (tx : Transaction) : Bytes :=
  tx.bytes ++ (writeSize tx.witness.length ++ tx.witness.flatMap TransactionWitness.bytes)

structure Transaction.BaseFits (limit : Nat) (tx : Transaction) : Prop where
  coinbaseData : tx.coinbaseData.length ≤ 128
  inputs : tx.inputs.length ≤ limit
  outputs : tx.outputs.length ≤ limit
  recipients : ∀ output ∈ tx.outputs, output.recipient.length ≤ uint32Max

structure Transaction.Fits (limit : Nat) (tx : Transaction) : Prop extends tx.BaseFits limit where
  witness : tx.witness.length ≤ limit
  publicKeys : ∀ item ∈ tx.witness, item.publicKey.length ≤ uint32Max
  signatures : ∀ item ∈ tx.witness, item.signature.length ≤ limit

theorem outputSerialize_ok (output : TransactionOutput) (b : Bytes) :
    output.serializeBinary = .ok b ↔ output.recipient.length ≤ uint32Max ∧ b = output.bytes := by
  simp only [TransactionOutput.serializeBinary, bind_ok, writeString_ok, pure_ok, TransactionOutput.bytes]
  refine ⟨?_, ?_⟩
  · intro hx
    obtain ⟨s, ⟨hl, rfl⟩, rfl⟩ := hx
    exact ⟨hl, rfl⟩
  · intro hx
    obtain ⟨hl, rfl⟩ := hx
    exact ⟨_, ⟨hl, rfl⟩, rfl⟩

theorem witnessSerialize_ok (item : TransactionWitness) (b : Bytes) : item.serializeBinary = .ok b ↔
    (item.publicKey.length ≤ uint32Max ∧ item.signature.length ≤ uint32Max) ∧ b = item.bytes := by
  simp only [TransactionWitness.serializeBinary, bind_ok, writeString_ok, ite_error_ok, pure_ok, Nat.not_lt,
    TransactionWitness.bytes]
  refine ⟨?_, ?_⟩
  · intro hx
    obtain ⟨s, ⟨hl, rfl⟩, hs, rfl⟩ := hx
    exact ⟨⟨hl, hs⟩, rfl⟩
  · intro hx
    obtain ⟨⟨hl, hs⟩, rfl⟩ := hx
    exact ⟨_, ⟨hl, rfl⟩, hs, rfl⟩

theorem serializeBinary_ok {tx : Transaction} {b : Bytes} :
    tx.serializeBinary = .ok b ↔ tx.BaseFits uint32Max ∧ b = tx.bytes := by
  simp only [Transaction.serializeBinary, ite_error_ok, bind_ok, mapM_ok outputSerialize_ok, pure_ok, Nat.not_lt]
  refine ⟨?_, ?_⟩
  · intro hx
    obtain ⟨hc, hi, ho, outs, ⟨hr, rfl⟩, rfl⟩ := hx
    exact ⟨⟨hc, hi, ho, hr⟩, by simp [Transaction.bytes, stringBytes, List.flatMap_def]⟩
  · intro hx
    obtain ⟨⟨hc, hi, ho, hr⟩, rfl⟩ := hx
    exact ⟨hc, hi, ho, _, ⟨hr, rfl⟩, by simp [Transaction.bytes, stringBytes, List.flatMap_def]⟩

theorem serializeFullBinary_ok {tx : Transaction} {b : Bytes} :
    tx.serializeFullBinary = .ok b ↔ tx.Fits uint32Max ∧ b = tx.fullBytes := by
  simp only [Transaction.serializeFullBinary, bind_ok, serializeBinary_ok, ite_error_ok,
    mapM_ok witnessSerialize_ok, pure_ok, Nat.not_lt]
  refine ⟨?_, ?_⟩
  · intro hx
    obtain ⟨base, ⟨hb, rfl⟩, hw, ws, ⟨hi, rfl⟩, rfl⟩ := hx
    exact ⟨⟨hb, hw, fun i h => (hi i h).1, fun i h => (hi i h).2⟩, by simp [Transaction.fullBytes, List.flatMap_def]⟩
  · intro hx
    obtain ⟨⟨hb, hw, hk, hs⟩, rfl⟩ := hx
    exact ⟨_, ⟨hb, rfl⟩, hw, _, ⟨fun i h => ⟨hk i h, hs i h⟩, rfl⟩, by simp [Transaction.fullBytes, List.flatMap_def]⟩

theorem readInput_exact : Exact readInput (fun _ => True) TransactionInput.serializeBinary := by
  intro s x rest
  simp only [readInput, andThen_ok, readHash_ok, readU32_ok, Except.ok.injEq, Prod.mk.injEq, true_and,
    TransactionInput.serializeBinary, List.append_assoc]
  refine ⟨?_, ?_⟩
  · intro hx
    obtain ⟨h, t, rfl, i, u, rfl, rfl, rfl⟩ := hx
    rfl
  · intro hx
    subst hx
    exact ⟨_, _, rfl, _, _, rfl, rfl, rfl⟩

theorem readOutput_exact : Exact readOutput (fun o => o.recipient.length ≤ uint32Max) TransactionOutput.bytes := by
  intro s x rest
  simp only [readOutput, andThen_ok, readU64_ok, readString_ok, Except.ok.injEq, Prod.mk.injEq,
    TransactionOutput.bytes, List.append_assoc]
  refine ⟨?_, ?_⟩
  · intro hx
    obtain ⟨a, t, rfl, r, u, ⟨hr, rfl⟩, rfl, rfl⟩ := hx
    exact ⟨hr, rfl⟩
  · intro hx
    obtain ⟨hr, rfl⟩ := hx
    exact ⟨_, _, rfl, _, _, ⟨hr, rfl⟩, rfl, rfl⟩

theorem readWitness_exact {limit : Nat} (hl : limit ≤ uint32Max) : Exact (readWitness limit)
    (fun w => w.publicKey.length ≤ uint32Max ∧ w.signature.length ≤ limit) TransactionWitness.bytes := by
  intro s x rest
  simp only [readWitness, andThen_ok, readString_ok, readCount_ok hl, readRaw_ok, Except.ok.injEq, Prod.mk.injEq,
    TransactionWitness.bytes, List.append_assoc]
  refine ⟨?_, ?_⟩
  · intro hx
    obtain ⟨k, t, ⟨hk, rfl⟩, n, u, ⟨hn, rfl⟩, b, v, ⟨rfl, rfl⟩, rfl, rfl⟩ := hx
    exact ⟨⟨hk, hn⟩, by simp [stringBytes]⟩
  · intro hx
    obtain ⟨⟨hk, hs⟩, rfl⟩ := hx
    exact ⟨_, _, ⟨hk, rfl⟩, _, _, ⟨hs, by simp only [stringBytes, List.append_assoc]⟩, _, _, ⟨rfl, rfl⟩, rfl, rfl⟩

theorem readTransaction_exact {limit : Nat} (hl : limit ≤ uint32Max) :
    Exact (readTransaction limit) (Transaction.Fits limit) Transaction.fullBytes := by
  intro s x rest
  have h128 : 128 ≤ uint32Max := by decide
  simp only [readTransaction, andThen_ok, readU32_ok, readCount_ok h128, readRaw_ok, readCount_ok hl,
    readMany_ok readInput_exact, readMany_ok readOutput_exact, readMany_ok (readWitness_exact hl), Except.ok.injEq,
    Prod.mk.injEq, Transaction.fullBytes, Transaction.bytes, stringBytes, List.append_assoc]
  refine ⟨?_, ?_⟩
  · intro hx
    obtain ⟨v, _, rfl, n, _, ⟨hn, rfl⟩, cb, _, ⟨rfl, rfl⟩, ni, _, ⟨hni, rfl⟩, ins, _, ⟨rfl, -, rfl⟩, no, _, ⟨hno, rfl⟩,
      outs, _, ⟨rfl, hr, rfl⟩, nw, _, ⟨hnw, rfl⟩, ws, _, ⟨rfl, hw, rfl⟩, rfl, rfl⟩ := hx
    exact ⟨⟨⟨hn, hni, hno, hr⟩, hnw, fun w h => (hw w h).1, fun w h => (hw w h).2⟩, rfl⟩
  · intro hx
    obtain ⟨⟨⟨hc, hi, ho, hr⟩, hw, hk, hs⟩, rfl⟩ := hx
    exact ⟨_, _, rfl, _, _, ⟨hc, rfl⟩, _, _, ⟨rfl, rfl⟩, _, _, ⟨hi, rfl⟩, _, _, ⟨rfl, fun _ _ => trivial, rfl⟩,
      _, _, ⟨ho, rfl⟩, _, _, ⟨rfl, hr, rfl⟩, _, _, ⟨hw, rfl⟩, _, _, ⟨rfl, fun w h => ⟨hk w h, hs w h⟩, rfl⟩, rfl, rfl⟩

theorem decodeLimit_le : decodeLimit ≤ uint32Max := by decide

theorem deserializeFull_ok {data : Bytes} {tx : Transaction} :
    Transaction.deserializeFull data = .ok tx ↔ tx.Fits decodeLimit ∧ data = tx.fullBytes := by
  rw [Transaction.deserializeFull, readAll_ok, readTransaction_exact decodeLimit_le, List.append_nil]

theorem readBaseTransaction_exact :
    Exact readBaseTransaction (fun tx => tx.BaseFits decodeLimit ∧ tx.witness = []) Transaction.bytes := by
  intro s x rest
  have h128 : 128 ≤ uint32Max := by decide
  simp only [readBaseTransaction, andThen_ok, readU32_ok, readCount_ok h128, readRaw_ok, readCount_ok decodeLimit_le,
    readMany_ok readInput_exact, readMany_ok readOutput_exact, Except.ok.injEq, Prod.mk.injEq, Transaction.bytes,
    stringBytes, List.append_assoc]
  refine ⟨?_, ?_⟩
  · intro hx
    obtain ⟨v, _, rfl, n, _, ⟨hn, rfl⟩, cb, _, ⟨rfl, rfl⟩, ni, _, ⟨hni, rfl⟩, ins, _, ⟨rfl, -, rfl⟩, no, _, ⟨hno, rfl⟩,
      outs, _, ⟨rfl, hr, rfl⟩, rfl, rfl⟩ := hx
    exact ⟨⟨⟨hn, hni, hno, hr⟩, rfl⟩, rfl⟩
  · intro hx
    obtain ⟨version, coinbaseData, inputs, outputs, witness⟩ := x
    obtain ⟨⟨⟨hc, hi, ho, hr⟩, hw⟩, rfl⟩ := hx
    subst hw
    exact ⟨_, _, rfl, _, _, ⟨hc, rfl⟩, _, _, ⟨rfl, rfl⟩, _, _, ⟨hi, rfl⟩, _, _, ⟨rfl, fun _ _ => trivial, rfl⟩,
      _, _, ⟨ho, rfl⟩, _, _, ⟨rfl, hr, rfl⟩, rfl, rfl⟩

theorem deserialize_ok {data : Bytes} {tx : Transaction} :
    Transaction.deserialize data = .ok tx ↔ (tx.BaseFits decodeLimit ∧ tx.witness = []) ∧ data = tx.bytes := by
  rw [Transaction.deserialize, readAll_ok, readBaseTransaction_exact, List.append_nil]

theorem fullBytes_inj {tx tx' : Transaction} (h : tx.Fits uint32Max) (h' : tx'.Fits uint32Max)
    (he : tx.fullBytes = tx'.fullBytes) : tx = tx' :=
  ((readTransaction_exact (Nat.le_refl _)).inj (s := []) (t := []) h h' (by rw [he])).1

def Transaction.strip (tx : Transaction) : Transaction := { tx with witness := [] }

theorem bytes_inj {tx tx' : Transaction} (h : tx.BaseFits uint32Max) (h' : tx'.BaseFits uint32Max)
    (he : tx.bytes = tx'.bytes) : tx.strip = tx'.strip := by
  have hf : tx.strip.Fits uint32Max := ⟨⟨h.1, h.2, h.3, h.4⟩, Nat.zero_le _, by simp [Transaction.strip],
    by simp [Transaction.strip]⟩
  have hf' : tx'.strip.Fits uint32Max := ⟨⟨h'.1, h'.2, h'.3, h'.4⟩, Nat.zero_le _, by simp [Transaction.strip],
    by simp [Transaction.strip]⟩
  refine fullBytes_inj hf hf' ?_
  show tx.bytes ++ _ = tx'.bytes ++ _
  rw [he]
  rfl

/-! ## Blocks -/

@[simp] theorem headerBytes_length (header : BlockHeader) : header.serializeBinary.length = 128 := by
  have h₁ := header.previousHash.2
  have h₂ := header.merkleRoot.2
  have h₃ := header.witnessRoot.2
  simp [BlockHeader.serializeBinary, h₁, h₂, h₃]

theorem readHeader_exact : Exact readHeader (fun _ => True) BlockHeader.serializeBinary := by
  intro s x rest
  simp only [readHeader, andThen_ok, readU32_ok, readU64_ok, readHash_ok, Except.ok.injEq, Prod.mk.injEq, true_and,
    BlockHeader.serializeBinary, List.append_assoc]
  refine ⟨?_, ?_⟩
  · intro hx
    obtain ⟨_, _, rfl, _, _, rfl, _, _, rfl, _, _, rfl, _, _, rfl, _, _, rfl, _, _, rfl, _, _, rfl, rfl, rfl⟩ := hx
    rfl
  · intro hx
    subst hx
    exact ⟨_, _, rfl, _, _, rfl, _, _, rfl, _, _, rfl, _, _, rfl, _, _, rfl, _, _, rfl, _, _, rfl, rfl, rfl⟩

theorem headerBytes_inj {header header' : BlockHeader} (h : header.serializeBinary = header'.serializeBinary) :
    header = header' :=
  (readHeader_exact.inj (s := []) (t := []) trivial trivial (by rw [h])).1

theorem headerDeserialize_ok {data : Bytes} {header : BlockHeader} :
    BlockHeader.deserializeBinary data = .ok header ↔ data = header.serializeBinary := by
  rw [BlockHeader.deserializeBinary, readAll_ok, readHeader_exact, List.append_nil, true_and]

/-- What a block's transaction must meet to be encoded and decoded with `limit`. -/
def Transaction.FitsBlock (limit : Nat) (tx : Transaction) : Prop := tx.Fits limit ∧ tx.fullBytes.length ≤ limit

def Block.bytes (block : Block) : Bytes :=
  block.header.serializeBinary ++
    (writeSize block.transactions.length ++ block.transactions.flatMap fun tx => stringBytes tx.fullBytes)

structure Block.Fits (limit : Nat) (block : Block) : Prop where
  count : block.transactions.length ≤ limit
  transactions : ∀ tx ∈ block.transactions, tx.FitsBlock limit

theorem serializeBlockTransaction_ok (tx : Transaction) (b : Bytes) :
    serializeBlockTransaction tx = .ok b ↔ tx.FitsBlock uint32Max ∧ b = stringBytes tx.fullBytes := by
  simp only [serializeBlockTransaction, bind_ok, serializeFullBinary_ok, ite_error_ok, pure_ok, Nat.not_lt,
    Transaction.FitsBlock]
  refine ⟨?_, ?_⟩
  · intro hx
    obtain ⟨_, ⟨hf, rfl⟩, hl, rfl⟩ := hx
    exact ⟨⟨hf, hl⟩, rfl⟩
  · intro hx
    obtain ⟨⟨hf, hl⟩, rfl⟩ := hx
    exact ⟨_, ⟨hf, rfl⟩, hl, rfl⟩

theorem blockSerialize_ok {block : Block} {b : Bytes} :
    block.serializeFullBinary = .ok b ↔ block.Fits uint32Max ∧ b = block.bytes := by
  simp only [Block.serializeFullBinary, ite_error_ok, bind_ok, mapM_ok serializeBlockTransaction_ok, pure_ok,
    Nat.not_lt]
  refine ⟨?_, ?_⟩
  · intro hx
    obtain ⟨hc, _, ⟨ht, rfl⟩, rfl⟩ := hx
    exact ⟨⟨hc, ht⟩, by simp [Block.bytes, List.flatMap_def]⟩
  · intro hx
    obtain ⟨⟨hc, ht⟩, rfl⟩ := hx
    exact ⟨hc, _, ⟨ht, rfl⟩, by simp [Block.bytes, List.flatMap_def]⟩

theorem readBlockTransaction_exact :
    Exact readBlockTransaction (Transaction.FitsBlock decodeLimit) fun tx => stringBytes tx.fullBytes := by
  intro s x rest
  simp only [readBlockTransaction, andThen_ok, readCount_ok decodeLimit_le, readRaw_ok, Transaction.FitsBlock]
  refine ⟨?_, ?_⟩
  · intro hx
    obtain ⟨n, _, ⟨hn, rfl⟩, data, t, ⟨rfl, rfl⟩, h⟩ := hx
    split at h
    · rename_i tx htx
      obtain ⟨hf, rfl⟩ := deserializeFull_ok.mp htx
      simp only [Except.ok.injEq, Prod.mk.injEq] at h
      obtain ⟨rfl, rfl⟩ := h
      exact ⟨⟨hf, hn⟩, by simp [stringBytes]⟩
    · cases h
  · intro hx
    obtain ⟨⟨hf, hn⟩, rfl⟩ := hx
    refine ⟨_, _, ⟨hn, by simp only [stringBytes, List.append_assoc]⟩, x.fullBytes, rest, ⟨rfl, rfl⟩, ?_⟩
    rw [deserializeFull_ok.mpr ⟨hf, rfl⟩]

theorem readBlock_exact : Exact readBlock (Block.Fits decodeLimit) Block.bytes := by
  intro s x rest
  simp only [readBlock, andThen_ok, readHeader_exact s, readCount_ok decodeLimit_le,
    readMany_ok readBlockTransaction_exact, Except.ok.injEq, Prod.mk.injEq, Block.bytes, List.append_assoc, true_and]
  refine ⟨?_, ?_⟩
  · intro hx
    obtain ⟨_, _, rfl, n, _, ⟨hn, rfl⟩, txs, _, ⟨rfl, ht, rfl⟩, rfl, rfl⟩ := hx
    exact ⟨⟨hn, ht⟩, rfl⟩
  · intro hx
    obtain ⟨⟨hn, ht⟩, rfl⟩ := hx
    exact ⟨_, _, rfl, _, _, ⟨hn, rfl⟩, _, _, ⟨rfl, ht, rfl⟩, rfl, rfl⟩

theorem blockDeserialize_ok {data : Bytes} {block : Block} :
    Block.deserializeFull data = .ok block ↔ block.Fits decodeLimit ∧ data = block.bytes := by
  rw [Block.deserializeFull, readAll_ok, readBlock_exact, List.append_nil]

/-! ## Round trips -/

theorem Transaction.BaseFits.mono {limit limit' : Nat} (hl : limit ≤ limit') {tx : Transaction}
    (h : tx.BaseFits limit) : tx.BaseFits limit' :=
  ⟨h.coinbaseData, h.inputs.trans hl, h.outputs.trans hl, h.recipients⟩

theorem Transaction.Fits.mono {limit limit' : Nat} (hl : limit ≤ limit') {tx : Transaction} (h : tx.Fits limit) :
    tx.Fits limit' :=
  ⟨h.toBaseFits.mono hl, h.witness.trans hl, h.publicKeys, fun item hi => (h.signatures item hi).trans hl⟩

theorem Transaction.FitsBlock.mono {limit limit' : Nat} (hl : limit ≤ limit') {tx : Transaction}
    (h : tx.FitsBlock limit) : tx.FitsBlock limit' :=
  ⟨h.1.mono hl, h.2.trans hl⟩

theorem Block.Fits.mono {limit limit' : Nat} (hl : limit ≤ limit') {block : Block} (h : block.Fits limit) :
    block.Fits limit' :=
  ⟨h.count.trans hl, fun tx ht => (h.transactions tx ht).mono hl⟩

/-- What the decoders allow: counts, signatures and the size of the whole transaction. -/
structure Transaction.WithinLimits (tx : Transaction) : Prop where
  coinbaseData : tx.coinbaseData.length ≤ 128
  inputs : tx.inputs.length ≤ decodeLimit
  outputs : tx.outputs.length ≤ decodeLimit
  witness : tx.witness.length ≤ decodeLimit
  signatures : ∀ item ∈ tx.witness, item.signature.length ≤ decodeLimit
  serialized : ∃ data, tx.serializeFullBinary = .ok data ∧ data.length ≤ decodeLimit

structure Block.WithinLimits (block : Block) : Prop where
  count : block.transactions.length ≤ decodeLimit
  transactions : ∀ tx ∈ block.transactions, tx.WithinLimits

-- the texts that have no limit of their own are those of a transaction that was serialized
theorem Transaction.WithinLimits.fitsBlock {tx : Transaction} (h : tx.WithinLimits) : tx.FitsBlock decodeLimit := by
  obtain ⟨data, hd, hl⟩ := h.serialized
  obtain ⟨hf, rfl⟩ := serializeFullBinary_ok.mp hd
  exact ⟨⟨⟨h.coinbaseData, h.inputs, h.outputs, hf.recipients⟩, h.witness, hf.publicKeys, h.signatures⟩, hl⟩

theorem Block.WithinLimits.fits {block : Block} (h : block.WithinLimits) : block.Fits decodeLimit :=
  ⟨h.count, fun tx ht => (h.transactions tx ht).fitsBlock⟩

/-- Each decoder undoes its encoder, and what it accepts is what the encoder makes of the result. -/
theorem codec_inverse :
    ((∀ block : Block, block.WithinLimits →
        ∃ data, block.serializeFullBinary = .ok data ∧ Block.deserializeFull data = .ok block) ∧
      ∀ data block, Block.deserializeFull data = .ok block → block.serializeFullBinary = .ok data) ∧
    ((∀ tx : Transaction, tx.WithinLimits →
        ∃ data, tx.serializeFullBinary = .ok data ∧ Transaction.deserializeFull data = .ok tx) ∧
      ∀ data tx, Transaction.deserializeFull data = .ok tx → tx.serializeFullBinary = .ok data) ∧
    ((∀ tx : Transaction, tx.WithinLimits → tx.witness = [] →
        ∃ data, tx.serializeBinary = .ok data ∧ Transaction.deserialize data = .ok tx) ∧
      ∀ data tx, Transaction.deserialize data = .ok tx → tx.witness = [] ∧ tx.serializeBinary = .ok data) ∧
    ((∀ header : BlockHeader, BlockHeader.deserializeBinary header.serializeBinary = .ok header) ∧
      ∀ data header, BlockHeader.deserializeBinary data = .ok header → header.serializeBinary = data) := by
  have hmax := decodeLimit_le
  refine ⟨⟨?_, ?_⟩, ⟨?_, ?_⟩, ⟨?_, ?_⟩, ⟨?_, ?_⟩⟩
  · intro block h
    exact ⟨block.bytes, blockSerialize_ok.mpr ⟨h.fits.mono hmax, rfl⟩, blockDeserialize_ok.mpr ⟨h.fits, rfl⟩⟩
  · intro data block h
    obtain ⟨hf, rfl⟩ := blockDeserialize_ok.mp h
    exact blockSerialize_ok.mpr ⟨hf.mono hmax, rfl⟩
  · intro tx h
    exact ⟨tx.fullBytes, serializeFullBinary_ok.mpr ⟨h.fitsBlock.1.mono hmax, rfl⟩,
      deserializeFull_ok.mpr ⟨h.fitsBlock.1, rfl⟩⟩
  · intro data tx h
    obtain ⟨hf, rfl⟩ := deserializeFull_ok.mp h
    exact serializeFullBinary_ok.mpr ⟨hf.mono hmax, rfl⟩
  · intro tx h hw
    have hf := h.fitsBlock.1.toBaseFits
    exact ⟨tx.bytes, serializeBinary_ok.mpr ⟨hf.mono hmax, rfl⟩, deserialize_ok.mpr ⟨⟨hf, hw⟩, rfl⟩⟩
  · intro data tx h
    obtain ⟨⟨hf, hw⟩, rfl⟩ := deserialize_ok.mp h
    exact ⟨hw, serializeBinary_ok.mpr ⟨hf.mono hmax, rfl⟩⟩
  · intro header
    exact headerDeserialize_ok.mpr rfl
  · intro data header h
    exact (headerDeserialize_ok.mp h).symm

def burnTransaction : Transaction := ⟨1, [], [], [⟨1, [7]⟩], []⟩

def burnBlock : Block := ⟨⟨1, 0, Hash256.zero, Hash256.zero, Hash256.zero, 0, 0, 0⟩, [burnTransaction]⟩

theorem burnBlock_within : burnBlock.WithinLimits := by
  refine ⟨by decide, fun tx htx => ?_⟩
  rw [List.mem_singleton.mp htx]
  exact ⟨by decide, by decide, by decide, by decide, by decide, burnTransaction.fullBytes, by decide, by decide⟩

theorem codec_inverse_burn :
    ∃ data, burnBlock.serializeFullBinary = .ok data ∧ Block.deserializeFull data = .ok burnBlock :=
  codec_inverse.1.1 burnBlock burnBlock_within

end Caesar
