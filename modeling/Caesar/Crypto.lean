import Caesar.Lib.Codec
import Caesar.Lib.PairTree

/-!
# Hashes, keys and addresses

`Crypto` collects what the node takes from OpenSSL: SHA-256, the construction
of an Ed25519 key from its raw bytes, and signature verification. Everything
built from them is defined here. A C++ exception is an `Error`.
-/

namespace Caesar

open Codec

inductive Error where
  | runtimeError (what : String)
  | outOfRange (what : String)
  | overflowError (what : String)
  deriving DecidableEq, Repr

def Error.what : Error → String
  | .runtimeError what => what
  | .outOfRange what => what
  | .overflowError what => what

abbrev Result := Except Error

def fail {α : Type} (what : String) : Result α := .error (.runtimeError what)

abbrev Hash256 := { bytes : Bytes // bytes.length = 32 }

def Hash256.zero : Hash256 := ⟨List.replicate 32 0, by simp⟩

/-- An Ed25519 key, by its raw bytes. -/
abbrev PKey := Bytes

structure Crypto where
  sha256 : Bytes → Hash256
  newRawPublicKey : Bytes → Option PKey
  digestVerify : PKey → Bytes → Bytes → Bool

def asciiBytes (s : List Char) : Bytes := s.map fun c => UInt8.ofNat c.toNat

/-! ## Hexadecimal -/

def hexDigit (n : UInt8) : UInt8 := if n < 10 then 48 + n else 87 + n

def bytesToHex (bytes : Bytes) : Bytes :=
  bytes.flatMap fun b : UInt8 => [hexDigit (b >>> 4), hexDigit (b &&& 15)]

def hashToHex (hash : Hash256) : Bytes := bytesToHex hash.1

def hexValue (c : UInt8) : Result UInt8 :=
  if 48 ≤ c ∧ c ≤ 57 then .ok (c - 48)
  else if 97 ≤ c ∧ c ≤ 102 then .ok (c - 97 + 10)
  else if 65 ≤ c ∧ c ≤ 70 then .ok (c - 65 + 10)
  else fail "invalid hex character"

def hexPairs : Bytes → Result Bytes
  | hi :: lo :: rest => do
    let h ← hexValue hi
    let l ← hexValue lo
    let bytes ← hexPairs rest
    pure (((h <<< 4) ||| l) :: bytes)
  | _ => pure []

def hexToBytes (hex : Bytes) : Result Bytes :=
  if hex.length % 2 ≠ 0 then fail "invalid hex length" else hexPairs hex

section
variable (K : Crypto)

def publicKeyFromHex (hex : Bytes) : Result PKey := do
  let raw ← hexToBytes hex
  if raw.length ≠ 32 then fail "Ed25519 public key must be 32 bytes"
  else match K.newRawPublicKey raw with
    | none => fail "failed to create Ed25519 public key"
    | some key => pure key

def verifySignature (key : PKey) (message signature : Bytes) : Bool :=
  if signature.isEmpty then false else K.digestVerify key message signature

/-! ## Merkle trees -/

def hashPair (left right : Hash256) : Hash256 := K.sha256 (left.1 ++ right.1)

def merkleRoot (hashes : List Hash256) : Hash256 :=
  match PairTree.climb (hashPair K) hashes.length hashes with
  | [] => K.sha256 []
  | root :: _ => root

/-! ## Addresses -/

def addressChecksum (payload : Bytes) : Bytes :=
  (hashToHex (K.sha256 (hashToHex (K.sha256 payload)))).take 8

def canonicalizePublicKey (publicKey : Bytes) : Bytes :=
  publicKey.map fun c => if 65 ≤ c ∧ c ≤ 70 then c - 65 + 97 else c

def addressFromPublicKey (publicKey : Bytes) : Bytes :=
  let payload := asciiBytes ['C', 'Z', '1'] ++ hashToHex (K.sha256 (canonicalizePublicKey publicKey))
  payload ++ addressChecksum K payload

def isValidAddress (address : Bytes) : Bool :=
  address.length = 75 && (asciiBytes ['C', 'Z', '1']).isPrefixOf address &&
    (address.drop 3).all (fun c => (48 ≤ c && c ≤ 57) || (97 ≤ c && c ≤ 102)) &&
    (address.drop 67).take 8 = addressChecksum K (address.take 67)

end

end Caesar
