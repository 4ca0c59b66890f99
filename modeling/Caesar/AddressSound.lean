import Caesar.CommitSound
import Caesar.LimitSound
import Caesar.Lib.Bits

/-!
# Addresses and the keys they stand for

Lowering the letters of a key text does not change the bytes it spells, and gives
the text that those bytes are printed as (`canonicalize_of_hexToBytes`). So an
address depends on the bytes of a key and not on its spelling.
-/

namespace Caesar

open Codec
open Bits (forall_byte)

/-! ## Hexadecimal digits -/

def lowerHexLetter (c : UInt8) : UInt8 := if 65 ≤ c ∧ c ≤ 70 then c - 65 + 97 else c

theorem canonicalizePublicKey_eq (publicKey : Bytes) : canonicalizePublicKey publicKey = publicKey.map lowerHexLetter :=
  rfl

theorem lowerHexLetter_table (c : UInt8) : hexValue (lowerHexLetter c) = hexValue c ∧
    (hexValue c).toOption.all (fun v => hexDigit v = lowerHexLetter c ∧ v.toNat < 16) = true :=
  forall_byte (p := fun c => hexValue (lowerHexLetter c) = hexValue c ∧
    (hexValue c).toOption.all (fun v => hexDigit v = lowerHexLetter c ∧ v.toNat < 16) = true) (by decide +kernel) c.toNat_lt

theorem hexValue_lowerHexLetter (c : UInt8) : hexValue (lowerHexLetter c) = hexValue c := (lowerHexLetter_table c).1

theorem hexDigit_hexValue {c v : UInt8} (h : hexValue c = .ok v) : hexDigit v = lowerHexLetter c ∧ v.toNat < 16 := by
  have hall := (lowerHexLetter_table c).2
  rw [h] at hall
  simpa [Except.toOption] using hall

theorem hexValue_hexDigit {n : UInt8} (h : n.toNat < 16) : hexValue (hexDigit n) = .ok n :=
  forall_byte (p := fun n => hexValue (hexDigit n) = .ok n) (by decide) h

theorem isHexDigit_hexDigit {n : UInt8} (h : n.toNat < 16) :
    ((48 ≤ hexDigit n && hexDigit n ≤ 57) || (97 ≤ hexDigit n && hexDigit n ≤ 102)) = true :=
  forall_byte (p := fun n => ((48 ≤ hexDigit n && hexDigit n ≤ 57) || (97 ≤ hexDigit n && hexDigit n ≤ 102)) = true)
    (by decide) h

theorem toNat_high (b : UInt8) : (b >>> 4).toNat = b.toNat / 16 := by
  rw [UInt8.toNat_shiftRight]
  exact Nat.shiftRight_eq_div_pow b.toNat 4

theorem toNat_low (b : UInt8) : (b &&& 15).toNat = b.toNat % 16 := by
  rw [UInt8.toNat_and]
  exact Nat.and_two_pow_sub_one_eq_mod b.toNat 4

theorem toNat_shift_or {a b : UInt8} (ha : a.toNat < 16) (hb : b.toNat < 16) :
    ((a <<< 4) ||| b).toNat = 16 * a.toNat + b.toNat := by
  have hshift : (a <<< 4).toNat = 2 ^ 4 * a.toNat := by
    rw [UInt8.toNat_shiftLeft]
    show (a.toNat <<< 4) % 2 ^ 8 = _
    rw [Nat.shiftLeft_eq]
    omega
  rw [UInt8.toNat_or, hshift]
  exact (Nat.two_pow_add_eq_or_of_lt hb a.toNat).symm

theorem shift_or_nibbles {a b : UInt8} (ha : a.toNat < 16) (hb : b.toNat < 16) :
    ((a <<< 4) ||| b) >>> 4 = a ∧ ((a <<< 4) ||| b) &&& 15 = b := by
  rw [← UInt8.toNat_inj, ← UInt8.toNat_inj, toNat_high, toNat_low, toNat_shift_or ha hb]
  omega

theorem nibbles_shift_or (b : UInt8) :
    (b >>> 4).toNat < 16 ∧ (b &&& 15).toNat < 16 ∧ ((b >>> 4) <<< 4) ||| (b &&& 15) = b := by
  have hhi : (b >>> 4).toNat < 16 := by
    have := b.toNat_lt
    rw [toNat_high]
    omega
  have hlo : (b &&& 15).toNat < 16 := by
    rw [toNat_low]
    omega
  refine ⟨hhi, hlo, ?_⟩
  rw [← UInt8.toNat_inj, toNat_shift_or hhi hlo, toNat_high, toNat_low]
  omega

/-! ## Hexadecimal texts -/

theorem bytesToHex_cons (b : UInt8) (bytes : Bytes) :
    bytesToHex (b :: bytes) = hexDigit (b >>> 4) :: hexDigit (b &&& 15) :: bytesToHex bytes := rfl

theorem hexPairs_bytesToHex (bytes : Bytes) : hexPairs (bytesToHex bytes) = .ok bytes := by
  induction bytes with
  | nil => rfl
  | cons b bytes ih =>
    obtain ⟨hhi, hlo, hb⟩ := nibbles_shift_or b
    rw [bytesToHex_cons, hexPairs, bind_ok]
    refine ⟨_, hexValue_hexDigit hhi, ?_⟩
    rw [bind_ok]
    refine ⟨_, hexValue_hexDigit hlo, ?_⟩
    rw [bind_ok]
    exact ⟨_, ih, by rw [hb]; rfl⟩

theorem hexToBytes_bytesToHex (bytes : Bytes) : hexToBytes (bytesToHex bytes) = .ok bytes := by
  rw [hexToBytes, bytesToHex_length, if_neg (by omega), hexPairs_bytesToHex]

theorem bytesToHex_inj {a b : Bytes} (h : bytesToHex a = bytesToHex b) : a = b := by
  have ha := hexToBytes_bytesToHex a
  rw [h, hexToBytes_bytesToHex b] at ha
  exact (Except.ok.inj ha).symm

theorem hexPairs_map_lower : ∀ hex : Bytes, hexPairs (hex.map lowerHexLetter) = hexPairs hex
  | [] => rfl
  | [_] => rfl
  | hi :: lo :: rest => by
    rw [List.map_cons, List.map_cons, hexPairs, hexPairs, hexValue_lowerHexLetter, hexValue_lowerHexLetter,
      hexPairs_map_lower rest]

/-- The text is read as before. -/
theorem hexToBytes_canonicalize (hex : Bytes) : hexToBytes (canonicalizePublicKey hex) = hexToBytes hex := by
  rw [canonicalizePublicKey_eq, hexToBytes, hexToBytes, List.length_map, hexPairs_map_lower]

theorem map_lower_of_hexPairs : ∀ {hex bytes : Bytes}, hex.length % 2 = 0 → hexPairs hex = .ok bytes →
    hex.map lowerHexLetter = bytesToHex bytes
  | [], _, _, h => by
    obtain rfl := Except.ok.inj h
    rfl
  | [_], _, hlen, _ => by simp at hlen
  | hi :: lo :: rest, bytes, hlen, h => by
    rw [hexPairs, bind_ok] at h
    obtain ⟨a, ha, h⟩ := h
    obtain ⟨b, hb, h⟩ := bind_ok.mp h
    obtain ⟨tail, htail, h⟩ := bind_ok.mp h
    obtain rfl := Except.ok.inj h
    obtain ⟨hda, hlta⟩ := hexDigit_hexValue ha
    obtain ⟨hdb, hltb⟩ := hexDigit_hexValue hb
    obtain ⟨hshift, hmask⟩ := shift_or_nibbles hlta hltb
    have hrest := map_lower_of_hexPairs (by simp only [List.length_cons] at hlen; omega) htail
    rw [List.map_cons, List.map_cons, hrest, ← hda, ← hdb]
    simp only [bytesToHex, List.flatMap_cons, hshift, hmask]
    rfl

/-- A key text, its letters lowered, is what its bytes are printed as. -/
theorem canonicalize_of_hexToBytes {hex bytes : Bytes} (h : hexToBytes hex = .ok bytes) :
    canonicalizePublicKey hex = bytesToHex bytes := by
  rw [hexToBytes, ite_error_ok, not_not] at h
  exact map_lower_of_hexPairs h.1 h.2

/-! ## Addresses -/

section
variable {K : Crypto}

def addressPayload (K : Crypto) (publicKey : Bytes) : Bytes :=
  asciiBytes ['C', 'Z', '1'] ++ hashToHex (K.sha256 (canonicalizePublicKey publicKey))

theorem addressFromPublicKey_eq (publicKey : Bytes) :
    addressFromPublicKey K publicKey = addressPayload K publicKey ++ addressChecksum K (addressPayload K publicKey) := rfl

theorem hashToHex_length (hash : Hash256) : (hashToHex hash).length = 64 := by
  rw [hashToHex, bytesToHex_length, hash.2]

theorem addressPayload_length (publicKey : Bytes) : (addressPayload K publicKey).length = 67 := by
  rw [addressPayload, List.length_append, hashToHex_length]
  rfl

theorem isHexDigit_of_mem {bytes : Bytes} {c : UInt8} (h : c ∈ bytesToHex bytes) :
    ((48 ≤ c && c ≤ 57) || (97 ≤ c && c ≤ 102)) = true := by
  obtain ⟨b, -, hc⟩ := List.mem_flatMap.mp h
  obtain ⟨hhi, hlo, -⟩ := nibbles_shift_or b
  simp only [List.mem_cons, List.not_mem_nil, or_false] at hc
  obtain rfl | rfl := hc
  · exact isHexDigit_hexDigit hhi
  · exact isHexDigit_hexDigit hlo

theorem not_mem_hex (bytes : Bytes) {c : UInt8} (hc : (48 ≤ c && c ≤ 57 || 97 ≤ c && c ≤ 102) = false) :
    c ∉ bytesToHex bytes := by
  intro h
  rw [isHexDigit_of_mem h] at hc
  cases hc

theorem isValidAddress_address (publicKey : Bytes) : isValidAddress K (addressFromPublicKey K publicKey) = true := by
  have hlen := addressPayload_length (K := K) publicKey
  have hcheck : (addressChecksum K (addressPayload K publicKey)).length = 8 := by
    rw [addressChecksum, List.length_take, hashToHex_length]
    rfl
  have htake : (addressFromPublicKey K publicKey).take 67 = addressPayload K publicKey := by
    rw [addressFromPublicKey_eq, ← hlen, List.take_left]
  have hdrop : (addressFromPublicKey K publicKey).drop 67 = addressChecksum K (addressPayload K publicKey) := by
    rw [addressFromPublicKey_eq, ← hlen, List.drop_left]
  have hhead : (asciiBytes ['C', 'Z', '1']).isPrefixOf (addressFromPublicKey K publicKey) = true := by
    rw [addressFromPublicKey_eq, addressPayload, List.append_assoc]
    simp
  have htail : (addressFromPublicKey K publicKey).drop 3 =
      hashToHex (K.sha256 (canonicalizePublicKey publicKey)) ++ addressChecksum K (addressPayload K publicKey) := by
    rw [addressFromPublicKey_eq]
    nth_rewrite 1 [addressPayload]
    rw [List.append_assoc]
    rfl
  have hhex : ((addressFromPublicKey K publicKey).drop 3).all
      (fun c => (48 ≤ c && c ≤ 57) || (97 ≤ c && c ≤ 102)) = true := by
    rw [htail, List.all_append, Bool.and_eq_true, List.all_eq_true, List.all_eq_true]
    constructor
    · intro c hc
      exact isHexDigit_of_mem hc
    · intro c hc
      exact isHexDigit_of_mem (List.mem_of_mem_take hc)
  rw [isValidAddress, address_length, hhead, hhex, htake, hdrop, List.take_of_length_le (by omega)]
  simp

theorem address_inj {p q : Bytes} (hcf : CollisionFree K [canonicalizePublicKey p, canonicalizePublicKey q])
    (h : addressFromPublicKey K p = addressFromPublicKey K q) : canonicalizePublicKey p = canonicalizePublicKey q := by
  rw [addressFromPublicKey_eq, addressFromPublicKey_eq] at h
  have hpayload := (List.append_inj h (by rw [addressPayload_length, addressPayload_length])).1
  have hhex := List.append_cancel_left hpayload
  have hhash : K.sha256 (canonicalizePublicKey p) = K.sha256 (canonicalizePublicKey q) :=
    Subtype.ext (bytesToHex_inj hhex)
  exact hcf _ (by simp) _ (by simp) hhash

theorem address_congr {p q : Bytes} (h : canonicalizePublicKey p = canonicalizePublicKey q) :
    addressFromPublicKey K p = addressFromPublicKey K q := by
  rw [addressFromPublicKey, addressFromPublicKey, h]

/-- Any text whose address is that of a key is a spelling of the key. -/
theorem address_eq_iff {p q a : Bytes} (hp : hexToBytes p = .ok a)
    (hcf : CollisionFree K [canonicalizePublicKey p, canonicalizePublicKey q]) :
    addressFromPublicKey K p = addressFromPublicKey K q ↔ hexToBytes q = .ok a := by
  constructor
  · intro h
    rw [← hexToBytes_canonicalize q, ← address_inj hcf h, hexToBytes_canonicalize, hp]
  · intro hq
    apply address_congr
    rw [canonicalize_of_hexToBytes hp, canonicalize_of_hexToBytes hq]

end

theorem address_identifies_key (K : Crypto) :
    (∀ p q a b : Bytes, hexToBytes p = .ok a → a.length = 32 → hexToBytes q = .ok b → b.length = 32 →
      CollisionFree K [canonicalizePublicKey p, canonicalizePublicKey q] →
      (addressFromPublicKey K p = addressFromPublicKey K q ↔ a = b)) ∧
    (∀ s : Bytes, isValidAddress K (addressFromPublicKey K s) = true) ∧
    ∀ (output : TransactionOutput) (p q a : Bytes), hexToBytes p = .ok a → a.length = 32 →
      output.recipient = addressFromPublicKey K p →
      CollisionFree K [canonicalizePublicKey p, canonicalizePublicKey q] →
      (verifyUtxoOwnership K output q = true ↔ hexToBytes q = .ok a) := by
  refine ⟨?_, isValidAddress_address, ?_⟩
  · intro p q a b hp _ hq _ hcf
    rw [address_eq_iff hp hcf, hq, Except.ok.injEq]
    exact eq_comm
  · intro output p q a hp hlen hrecipient hcf
    have hne : output.recipient ≠ [] := by
      intro hnil
      have := address_length (K := K) p
      rw [← hrecipient, hnil] at this
      cases this
    rw [← address_eq_iff hp hcf, verifyUtxoOwnership, publicKeyToAddress, hrecipient]
    rw [hrecipient] at hne
    by_cases hq : q = []
    · -- the empty text spells no key
      have hnot : ¬ addressFromPublicKey K p = addressFromPublicKey K q := by
        rw [address_eq_iff hp hcf, hq]
        intro hnil
        rw [← Except.ok.inj hnil] at hlen
        cases hlen
      rw [if_pos (by simp [hq])]
      simp [hnot]
    · rw [if_neg (by simp [hq, hne])]
      exact decide_eq_true_iff

-- one key in capitals and in small letters
theorem address_of_both_cases :
    addressFromPublicKey toyCrypto (List.replicate 64 65) = addressFromPublicKey toyCrypto (List.replicate 64 97) ∧
    verifyUtxoOwnership toyCrypto ⟨5, addressFromPublicKey toyCrypto (List.replicate 64 97)⟩ (List.replicate 64 65) =
      true := by
  have hupper : hexToBytes (List.replicate 64 65) = .ok (List.replicate 32 170) := by decide +kernel
  have hlower : hexToBytes (List.replicate 64 97) = .ok (List.replicate 32 170) := by decide +kernel
  have hsame : canonicalizePublicKey (List.replicate 64 65) = canonicalizePublicKey (List.replicate 64 97) := by
    decide +kernel
  have hcf : ∀ s : Bytes, CollisionFree toyCrypto [s, s] := by
    intro s
    simp [CollisionFree]
  have hkey := address_identifies_key toyCrypto
  constructor
  · rw [hkey.1 _ _ _ _ hupper (by simp) hlower (by simp) (by rw [hsame]; exact hcf _)]
  · rw [hkey.2.2 _ _ _ _ hlower (by simp) rfl (by rw [hsame]; exact hcf _)]
    exact hupper

end Caesar
