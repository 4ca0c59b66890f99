import Caesar.Crypto
import Caesar.Lib.Bits
import Caesar.Lib.Text

/-!
# Recovery phrases, derivation paths and the wallet they give

`bip39.hpp`, `slip10.hpp` and `wallet_hd.hpp`. The word list is a parameter; so are
the primitives of OpenSSL, which fail by returning nothing.
-/

namespace Caesar

open Codec (Bytes)

/-! ## Mnemonics -/

namespace Bip39

/-- The characters `split_words` splits at: blank, tab, newline and return. -/
def isBlank (c : UInt8) : Bool := c = 32 || c = 9 || c = 10 || c = 13

structure WordList where
  words : List Bytes
  length_eq : words.length = 2048
  nodup : words.Nodup
  ne_nil : ∀ word ∈ words, word ≠ []
  solid : ∀ word ∈ words, ∀ c ∈ word, isBlank c = false

section
variable (K : Crypto) (W : WordList)

/-- Bit `pos` of the entropy followed by its hash. -/
def mnemonicBit (entropy : Bytes) (hash : Hash256) (pos : Nat) : Bool :=
  let entropyBits := entropy.length * 8
  if pos < entropyBits then Bits.bitAt entropy pos else Bits.bitAt hash.1 (pos - entropyBits)

/-- The eleven bits of word `i`, shifted in one after another; they fit in 16 bits. -/
def wordIndex (entropy : Bytes) (hash : Hash256) (i : Nat) : Nat :=
  Bits.gather 11 fun j => mnemonicBit entropy hash (i * 11 + j)

def entropyToMnemonic (entropy : Bytes) : Result Bytes :=
  if entropy.length ≠ 16 ∧ entropy.length ≠ 20 ∧ entropy.length ≠ 24 ∧ entropy.length ≠ 28 ∧
      entropy.length ≠ 32 then
    fail "bip39: invalid entropy size"
  else
    let hash := K.sha256 entropy
    let entropyBits := entropy.length * 8
    let checksumBits := entropyBits / 32
    let totalBits := entropyBits + checksumBits
    let wordCount := totalBits / 11
    let words := (List.range wordCount).map fun i => W.words.getD (wordIndex entropy hash i) []
    .ok (List.intercalate [32] words)

/-- The loop of `split_words` with the word read so far. -/
def splitLoop (cur : Bytes) : Bytes → List Bytes
  | [] => if cur.isEmpty then [] else [cur]
  | c :: rest =>
    if isBlank c then (if cur.isEmpty then splitLoop [] rest else cur :: splitLoop [] rest)
    else splitLoop (cur ++ [c]) rest

def splitWords (s : Bytes) : List Bytes := splitLoop [] s

/-- The bits of the words, most significant first, if each word is in the list. -/
def wordBits (words : List Bytes) : Option (List Bool) := do
  let indices ← words.mapM fun word => W.words.idxOf? word
  pure (indices.flatMap fun index => (List.range 11).map fun j => index.testBit (10 - j))

/-- The entropy with the first `n` bits set as the loop of `validate_mnemonic` sets them. -/
def rebuildEntropy (bits : List Bool) (entropyBytes : Nat) : Nat → Bytes
  | 0 => List.replicate entropyBytes 0
  | i + 1 =>
    let entropy := rebuildEntropy bits entropyBytes i
    if bits.getD i false then Bits.setBit entropy i else entropy

def validateMnemonic (mnemonic : Bytes) : Bool :=
  let words := splitWords mnemonic
  if words.length ≠ 12 ∧ words.length ≠ 15 ∧ words.length ≠ 18 ∧ words.length ≠ 21 ∧ words.length ≠ 24 then false
  else
    let totalBits := words.length * 11
    let checksumBits := totalBits / 33
    let entropyBits := totalBits - checksumBits
    let entropyBytes := entropyBits / 8
    match wordBits W words with
    | none => false
    | some bits =>
      let hash := K.sha256 (rebuildEntropy bits entropyBytes entropyBits)
      (List.range checksumBits).all fun i => bits.getD (entropyBits + i) false == Bits.bitAt hash.1 i

end

end Bip39

/-! ## Derivation -/

/-- A byte string of a fixed size. -/
abbrev Octets (n : Nat) := { bytes : Bytes // bytes.length = n }

structure HdCrypto where
  pbkdf2HmacSha512 : Bytes → Bytes → Nat → Option (Octets 64)
  hmacSha512 : Bytes → Bytes → Option (Octets 64)
  newRawPrivateKey : Octets 32 → Bool

/-- The seed of `mnemonic`, whose text is the password as it stands. -/
def Bip39.mnemonicToSeed (H : HdCrypto) (mnemonic passphrase : Bytes) : Result (Octets 64) :=
  let salt := Text.ascii "mnemonic" ++ passphrase
  match H.pbkdf2HmacSha512 mnemonic salt 2048 with
  | none => fail "bip39: PBKDF2-HMAC-SHA512 failed"
  | some seed => .ok seed

namespace Slip10

structure ExtendedKey where
  key : Octets 32
  chainCode : Octets 32
  deriving DecidableEq

/-- The two halves of an HMAC. -/
def splitHmac (I : Octets 64) : ExtendedKey where
  key := ⟨I.1.take 32, by rw [List.length_take, I.2]; rfl⟩
  chainCode := ⟨I.1.drop 32, by rw [List.length_drop, I.2]⟩

section
variable (H : HdCrypto)

def masterKeyFromSeed (seed : Bytes) : Result ExtendedKey :=
  match H.hmacSha512 (Text.ascii "ed25519 seed") seed with
  | none => fail "slip10: master HMAC-SHA512 failed"
  | some I => .ok (splitHmac I)

def hardenedBit : UInt32 := 0x80000000

/-- The 37 bytes hashed for a child: zero, the key and the index, most significant byte first. -/
def childData (parent : ExtendedKey) (index : UInt32) : Bytes :=
  0 :: (parent.key.1 ++ Bits.beBytes 4 index.toNat)

def deriveHardenedChild (parent : ExtendedKey) (index : UInt32) : Result ExtendedKey :=
  if index &&& hardenedBit = 0 then fail "slip10: ed25519 requires hardened index (>= 0x80000000)"
  else
    match H.hmacSha512 parent.chainCode.1 (childData parent index) with
    | none => fail "slip10: child HMAC-SHA512 failed"
    | some I => .ok (splitHmac I)

/-- A component of a path as the inner loop of `parse_path` leaves it. -/
structure Component where
  idx : UInt32
  hasDigit : Bool
  hasHardened : Bool
  rest : Bytes

/-- The quote, `h` and `H`. -/
def isMark (c : UInt8) : Bool := c = 39 || c = 104 || c = 72

/-- The inner loop; the index is multiplied in 32 bits before it is compared. -/
def scanComponent (idx : UInt32) (hasDigit : Bool) : Bytes → Result Component
  | [] => .ok ⟨idx, hasDigit, false, []⟩
  | c :: rest =>
    if c = 47 then .ok ⟨idx, hasDigit, false, c :: rest⟩
    else if isMark c then .ok ⟨idx, hasDigit, true, rest⟩
    else if c < 48 ∨ c > 57 then fail "slip10: invalid char in path"
    else
      let idx := idx * 10 + (c - 48).toUInt32
      if idx ≥ 0x80000000 then fail "slip10: index overflow" else scanComponent idx true rest

/-- The outer loop, with the number of turns bounded; each takes a slash off the text. -/
def parseComponents : Nat → Bytes → Result (List UInt32)
  | _, [] => .ok []
  | 0, _ :: _ => fail "slip10: expected '/'"
  | fuel + 1, c :: rest =>
    if c ≠ 47 then fail "slip10: expected '/'"
    else do
      let component ← scanComponent 0 false rest
      if !component.hasDigit then fail "slip10: missing index"
      else do
        let idx := if component.hasHardened then component.idx ||| hardenedBit else component.idx
        let indices ← parseComponents fuel component.rest
        pure (idx :: indices)

def parsePath : Bytes → Result (List UInt32)
  | 109 :: rest => parseComponents rest.length rest
  | _ => fail "slip10: path must start with 'm'"

def deriveIndices (ek : ExtendedKey) : List UInt32 → Result ExtendedKey
  | [] => .ok ek
  | idx :: rest =>
    if idx &&& hardenedBit = 0 then fail "slip10: ed25519 only supports hardened derivation"
    else do
      let child ← deriveHardenedChild H ek idx
      deriveIndices child rest

def derivePath (seed path : Bytes) : Result ExtendedKey := do
  let ek ← masterKeyFromSeed H seed
  let indices ← parsePath path
  deriveIndices H ek indices

def defaultPath : Bytes := Text.ascii "m/44'/7999'/0'/0'/0'"

end

end Slip10

/-! ## The wallet -/

/-- An Ed25519 key is its private seed: OpenSSL computes the public key from it. -/
structure KeyPair where
  privateSeed : Octets 32
  deriving DecidableEq

section
variable (K : Crypto) (W : Bip39.WordList) (H : HdCrypto)

def keypairFromEd25519Seed32 (privateSeed : Octets 32) : Result KeyPair :=
  if H.newRawPrivateKey privateSeed then .ok ⟨privateSeed⟩
  else fail "wallet_hd: failed to create Ed25519 EVP_PKEY from seed"

def walletFromMnemonic (mnemonic passphrase : Bytes) : Result KeyPair :=
  if !Bip39.validateMnemonic K W mnemonic then fail "wallet_hd: invalid BIP39 mnemonic"
  else do
    let seed64 ← Bip39.mnemonicToSeed H mnemonic passphrase
    let ext ← Slip10.derivePath H seed64.1 Slip10.defaultPath
    keypairFromEd25519Seed32 H ext.key

/-- The key a wallet file is given on recovery; the passphrase is empty. -/
def replaceWithMnemonic (mnemonic : Bytes) : Result KeyPair :=
  if !Bip39.validateMnemonic K W mnemonic then fail "invalid BIP39 mnemonic"
  else walletFromMnemonic K W H mnemonic []

end

end Caesar
