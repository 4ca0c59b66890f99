import Caesar.UtxoSound
import Caesar.SupplySound

/-!
# What an input signature covers

The message signed for an input is the domain, the base form of the transaction
and the index, so it determines all of them but not the witnesses.
-/

namespace Caesar

open Codec

theorem writeSize_inj {m n : Nat} (hm : m ≤ uint32Max) (hn : n ≤ uint32Max) (h : writeSize m = writeSize n) : m = n := by
  have hread : readU32 (writeSize m ++ []) = .ok (UInt32.ofNat n, []) := readU32_ok.mpr (by rw [h]; rfl)
  rw [readU32_ok.mpr (show writeSize m ++ [] = writeU32 (UInt32.ofNat m) ++ [] from rfl)] at hread
  have hval := congrArg UInt32.toNat (Prod.mk.inj (Except.ok.inj hread)).1
  simp only [UInt32.toNat_ofNat', uint32Max] at hval hm hn
  omega

theorem signingMessage_inj {a b : Transaction} {i j : Nat} {message : Bytes}
    (ha : transactionSigningMessage a i = .ok message) (hb : transactionSigningMessage b j = .ok message) :
    a.bytes = b.bytes ∧ a.strip = b.strip ∧ i = j := by
  obtain ⟨hi, hfa, hma⟩ := signingMessage_ok.mp ha
  obtain ⟨hj, hfb, hmb⟩ := signingMessage_ok.mp hb
  have hsame := hma.symm.trans hmb
  -- the index has a fixed width, and the domain is the same
  obtain ⟨hfront, hindex⟩ := List.append_inj' hsame (by simp)
  have hbytes : a.bytes = b.bytes := List.append_cancel_left hfront
  refine ⟨hbytes, bytes_inj hfa hfb hbytes, ?_⟩
  have hbounda := hfa.inputs
  have hboundb := hfb.inputs
  exact writeSize_inj (by omega) (by omega) hindex

theorem signingMessage_witness (tx : Transaction) (witness : List TransactionWitness) (i : Nat) :
    transactionSigningMessage { tx with witness := witness } i = transactionSigningMessage tx i := rfl

theorem verifySignature_digest {K : Crypto} {key : PKey} {message signature : Bytes}
    (h : verifySignature K key message signature = true) : K.digestVerify key message signature = true := by
  unfold verifySignature at h
  split at h
  · cases h
  · exact h

/-- The message determines the transaction and the index. So a signature is accepted for one input of one transaction, or
its key takes it for two messages. -/
theorem signing_message_injective :
    (∀ (tx : Transaction) (i : Nat), tx.BaseFits uint32Max → i < tx.inputs.length →
      ∃ message : Bytes, transactionSigningMessage tx i = .ok message) ∧
    (∀ (a b : Transaction) (i j : Nat) (message : Bytes), transactionSigningMessage a i = .ok message →
      transactionSigningMessage b j = .ok message →
      a.version = b.version ∧ a.coinbaseData = b.coinbaseData ∧ a.inputs = b.inputs ∧ a.outputs = b.outputs ∧ i = j) ∧
    (∀ (tx : Transaction) (witness : List TransactionWitness) (i : Nat),
      transactionSigningMessage { tx with witness := witness } i = transactionSigningMessage tx i) ∧
    ∀ (K : Crypto) (key : PKey) (signature : Bytes) (a b : Transaction) (i j : Nat),
      verifyTransactionInputSignature K a i key signature = .ok true →
      verifyTransactionInputSignature K b j key signature = .ok true →
      i = j ∧ a.serializeBinary = b.serializeBinary ∨
        ∃ m m' : Bytes, transactionSigningMessage a i = .ok m ∧ transactionSigningMessage b j = .ok m' ∧ m ≠ m' ∧
          K.digestVerify key m signature = true ∧ K.digestVerify key m' signature = true := by
  refine ⟨?_, ?_, signingMessage_witness, ?_⟩
  · intro tx i hfits hi
    exact ⟨_, signingMessage_ok.mpr ⟨hi, hfits, rfl⟩⟩
  · intro a b i j message ha hb
    obtain ⟨-, hstrip, hij⟩ := signingMessage_inj ha hb
    simp only [Transaction.strip, Transaction.mk.injEq, and_true] at hstrip
    obtain ⟨hversion, hdata, hinputs, houtputs⟩ := hstrip
    exact ⟨hversion, hdata, hinputs, houtputs, hij⟩
  · intro K key signature a b i j ha hb
    obtain ⟨m, hm, hv⟩ := verifyInput_true ha
    obtain ⟨m', hm', hv'⟩ := verifyInput_true hb
    by_cases hmm : m = m'
    · subst hmm
      obtain ⟨hbytes, -, hij⟩ := signingMessage_inj hm hm'
      obtain ⟨-, hfa, -⟩ := signingMessage_ok.mp hm
      obtain ⟨-, hfb, -⟩ := signingMessage_ok.mp hm'
      rw [serializeBinary_ok.mpr ⟨hfa, rfl⟩, serializeBinary_ok.mpr ⟨hfb, hbytes⟩]
      exact Or.inl ⟨hij, rfl⟩
    · exact Or.inr ⟨m, m', hm, hm', hmm, verifySignature_digest hv, verifySignature_digest hv'⟩

theorem signing_message_of_spend :
    ∃ message : Bytes, transactionSigningMessage (toySpend (toyCoinbase 1) 5) 0 = .ok message ∧
      ∀ (tx : Transaction) (i : Nat), transactionSigningMessage tx i = .ok message →
        tx.inputs = [⟨(toyCoinbase 1).id toyCrypto, 0⟩] ∧ tx.outputs = [⟨5, toyAddress⟩] ∧ i = 0 := by
  obtain ⟨message, hmessage⟩ := signing_message_injective.1 (toySpend (toyCoinbase 1) 5) 0
    ⟨by decide +kernel, by decide +kernel, by decide +kernel, by decide +kernel⟩ (by decide)
  refine ⟨message, hmessage, fun tx i h => ?_⟩
  obtain ⟨-, -, hinputs, houtputs, hi⟩ := signing_message_injective.2.1 tx _ i 0 message h hmessage
  exact ⟨hinputs, houtputs, hi⟩

/-- The encoding of the neutral element. -/
def neutralKey : PKey := 1 :: List.replicate 31 0

def neutralSignature : Bytes := 1 :: List.replicate 63 0

/-- With the neutral element as the key the equation of Ed25519 does not depend on the message. -/
def neutralCrypto : Crypto :=
  { toyCrypto with digestVerify := fun key _ signature => key == neutralKey && signature == neutralSignature }

theorem neutral_key_signs_all :
    publicKeyFromHex neutralCrypto (bytesToHex neutralKey) = .ok neutralKey ∧
      verifyTransactionInputSignature neutralCrypto (toySpend (toyCoinbase 1) 5) 0 neutralKey neutralSignature = .ok true ∧
      verifyTransactionInputSignature neutralCrypto (toySpend (toyCoinbase 2) 7) 0 neutralKey neutralSignature = .ok true ∧
      (toySpend (toyCoinbase 1) 5).serializeBinary ≠ (toySpend (toyCoinbase 2) 7).serializeBinary := by
  refine ⟨by decide +kernel, by decide +kernel, by decide +kernel, by decide +kernel⟩

end Caesar
