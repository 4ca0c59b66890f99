import Caesar.Crypto
import Mathlib.Data.Finmap
import Mathlib.Data.Finset.Basic

/-!
# Transactions and the UTXO set

The binary formats, the UTXO set as a finite map, the coinbase rules, and the
checks of a transaction against a UTXO set. A loop that leaves its function with
`return false` is a recursion that gives `none` or `false`.
-/

namespace Caesar

open Codec

/-! ## Binary writer and reader -/

def uint32Max : Nat := 0xffffffff

def uint64Max : UInt64 := 0xffffffffffffffff

def writeU32 (value : UInt32) : Bytes := leBytes 4 value.toNat

def writeU64 (value : UInt64) : Bytes := leBytes 8 value.toNat

def writeSize (n : Nat) : Bytes := writeU32 (UInt32.ofNat n)

def writeString (value : Bytes) : Result Bytes :=
  if value.length > uint32Max then fail "serialized string too large"
  else .ok (writeSize value.length ++ value)

def readRaw (n : Nat) : Reader Error Bytes := fun s =>
  if n > s.length then fail "truncated binary data" else .ok (s.take n, s.drop n)

def readU32 : Reader Error UInt32 := (readRaw 4).andThen fun b s => .ok (UInt32.ofNat (leNat b), s)

def readU64 : Reader Error UInt64 := (readRaw 8).andThen fun b s => .ok (UInt64.ofNat (leNat b), s)

def readHash : Reader Error Hash256 := fun s =>
  if h : 32 > s.length then fail "truncated binary data"
  else .ok (⟨s.take 32, by simp; omega⟩, s.drop 32)

def readString : Reader Error Bytes := readU32.andThen fun size s =>
  if size.toNat > s.length then fail "serialized string exceeds input"
  else .ok (s.take size.toNat, s.drop size.toNat)

def readCount (limit : Nat) (what : String) : Reader Error Nat := readU32.andThen fun n s =>
  if n.toNat > limit then fail what else .ok (n.toNat, s)

def readAll {α : Type} (d : Reader Error α) (what : String) (data : Bytes) : Result α := do
  let (x, rest) ← d data
  if rest.isEmpty then pure x else fail what

/-! ## Transactions -/

structure TransactionInput where
  previousTxid : Hash256
  outputIndex : UInt32
  deriving DecidableEq, Repr

structure TransactionOutput where
  amount : UInt64
  recipient : Bytes
  deriving DecidableEq, Repr

structure TransactionWitness where
  publicKey : Bytes
  signature : Bytes
  deriving DecidableEq, Repr

structure Transaction where
  version : UInt32
  coinbaseData : Bytes
  inputs : List TransactionInput
  outputs : List TransactionOutput
  witness : List TransactionWitness
  deriving DecidableEq, Repr

def TransactionInput.serializeBinary (input : TransactionInput) : Bytes :=
  input.previousTxid.1 ++ writeU32 input.outputIndex

def TransactionOutput.serializeBinary (output : TransactionOutput) : Result Bytes := do
  let recipient ← writeString output.recipient
  pure (writeU64 output.amount ++ recipient)

def Transaction.serializeBinary (tx : Transaction) : Result Bytes :=
  if tx.coinbaseData.length > 128 then fail "coinbase data too large"
  else if tx.inputs.length > uint32Max then fail "too many transaction inputs"
  else if tx.outputs.length > uint32Max then fail "too many transaction outputs"
  else do
    let outputs ← tx.outputs.mapM TransactionOutput.serializeBinary
    pure (writeU32 tx.version ++ (writeSize tx.coinbaseData.length ++ tx.coinbaseData) ++
      (writeSize tx.inputs.length ++ tx.inputs.flatMap TransactionInput.serializeBinary) ++
      (writeSize tx.outputs.length ++ outputs.flatten))

def TransactionWitness.serializeBinary (item : TransactionWitness) : Result Bytes := do
  let publicKey ← writeString item.publicKey
  if item.signature.length > uint32Max then fail "transaction signature too large"
  else pure (publicKey ++ (writeSize item.signature.length ++ item.signature))

def Transaction.serializeFullBinary (tx : Transaction) : Result Bytes := do
  let base ← tx.serializeBinary
  if tx.witness.length > uint32Max then fail "too many transaction witnesses"
  else do
    let witness ← tx.witness.mapM TransactionWitness.serializeBinary
    pure (base ++ (writeSize tx.witness.length ++ witness.flatten))

def decodeLimit : Nat := 1000000

def readInput : Reader Error TransactionInput := readHash.andThen fun txid =>
  readU32.andThen fun index s => .ok (⟨txid, index⟩, s)

def readOutput : Reader Error TransactionOutput := readU64.andThen fun amount =>
  readString.andThen fun recipient s => .ok (⟨amount, recipient⟩, s)

/-- `limit` bounds every count and the signatures; the node decodes with `decodeLimit`. -/
def readWitness (limit : Nat) : Reader Error TransactionWitness := readString.andThen fun publicKey =>
  (readCount limit "transaction signature too large").andThen fun size =>
    (readRaw size).andThen fun signature s => .ok (⟨publicKey, signature⟩, s)

def readTransaction (limit : Nat) : Reader Error Transaction := readU32.andThen fun version =>
  (readCount 128 "coinbase data too large").andThen fun size => (readRaw size).andThen fun coinbaseData =>
  (readCount limit "too many transaction inputs").andThen fun inputCount =>
  (readMany readInput inputCount).andThen fun inputs =>
  (readCount limit "too many transaction outputs").andThen fun outputCount =>
  (readMany readOutput outputCount).andThen fun outputs =>
  (readCount limit "too many transaction witnesses").andThen fun witnessCount =>
  (readMany (readWitness limit) witnessCount).andThen fun witness s =>
    .ok (⟨version, coinbaseData, inputs, outputs, witness⟩, s)

def Transaction.deserializeFull (data : Bytes) : Result Transaction :=
  readAll (readTransaction decodeLimit) "trailing bytes after full transaction" data

/-- The base form has no witnesses. -/
def readBaseTransaction : Reader Error Transaction := readU32.andThen fun version =>
  (readCount 128 "coinbase data too large").andThen fun size => (readRaw size).andThen fun coinbaseData =>
  (readCount decodeLimit "too many transaction inputs").andThen fun inputCount =>
  (readMany readInput inputCount).andThen fun inputs =>
  (readCount decodeLimit "too many transaction outputs").andThen fun outputCount =>
  (readMany readOutput outputCount).andThen fun outputs s => .ok (⟨version, coinbaseData, inputs, outputs, []⟩, s)

def Transaction.deserialize (data : Bytes) : Result Transaction :=
  readAll readBaseTransaction "trailing bytes after transaction" data

/-- The loop of `validate` over the outputs, with the sum so far. -/
def validateOutputs : UInt64 → List TransactionOutput → Option UInt64
  | sum, [] => some sum
  | sum, output :: rest =>
    if output.amount = 0 then none
    else if output.recipient.isEmpty then none
    else if output.amount > uint64Max - sum then none
    else validateOutputs (sum + output.amount) rest

def Transaction.validate (tx : Transaction) : Bool :=
  if tx.version = 0 then false
  else if tx.inputs.isEmpty || tx.outputs.isEmpty then false
  else match validateOutputs 0 tx.outputs with
    | none => false
    | some sum => sum > 0

def Transaction.txid (K : Crypto) (tx : Transaction) : Result Hash256 := do
  let data ← tx.serializeBinary
  pure (K.sha256 data)

def Transaction.wtxid (K : Crypto) (tx : Transaction) : Result Hash256 := do
  let data ← tx.serializeFullBinary
  pure (K.sha256 data)

/-! ## The UTXO set -/

structure OutPoint where
  txid : Hash256
  outputIndex : UInt32
  deriving DecidableEq, Repr

def TransactionInput.point (input : TransactionInput) : OutPoint := ⟨input.previousTxid, input.outputIndex⟩

def Transaction.points (tx : Transaction) : List OutPoint := tx.inputs.map TransactionInput.point

abbrev UTXOSet := Finmap fun _ : OutPoint => TransactionOutput

namespace UTXOSet

def add (utxos : UTXOSet) (point : OutPoint) (output : TransactionOutput) : Option UTXOSet :=
  if point ∈ utxos then none else some (utxos.insert point output)

def contains (utxos : UTXOSet) (point : OutPoint) : Bool := point ∈ utxos

def get (utxos : UTXOSet) (point : OutPoint) : Option TransactionOutput := utxos.lookup point

def spend (utxos : UTXOSet) (point : OutPoint) : Option UTXOSet :=
  if point ∈ utxos then some (utxos.erase point) else none

end UTXOSet

/-- The input loop of `validate_transaction_against_utxo`. -/
def sumInputs (utxos : UTXOSet) : Finset OutPoint → UInt64 → List TransactionInput → Option UInt64
  | _, sum, [] => some sum
  | seen, sum, input :: rest =>
    if input.point ∈ seen then none
    else match utxos.get input.point with
      | none => none
      | some previous =>
        if previous.amount > uint64Max - sum then none
        else sumInputs utxos (insert input.point seen) (sum + previous.amount) rest

/-- The output loop of `validate_transaction_against_utxo`. -/
def sumOutputs : UInt64 → List TransactionOutput → Option UInt64
  | sum, [] => some sum
  | sum, output :: rest =>
    if output.amount > uint64Max - sum then none else sumOutputs (sum + output.amount) rest

def validateTransactionAgainstUtxo (tx : Transaction) (utxos : UTXOSet) : Bool :=
  if !tx.validate then false
  else match sumInputs utxos ∅ 0 tx.inputs with
    | none => false
    | some inputSum =>
      match sumOutputs 0 tx.outputs with
      | none => false
      | some outputSum => inputSum ≥ outputSum

/-- The spending loop: every input leaves the set. -/
def spendInputs : List TransactionInput → UTXOSet → Option UTXOSet
  | [], utxos => some utxos
  | input :: rest, utxos => (utxos.spend input.point).bind (spendInputs rest)

/-- The loop that adds the outputs of `txid` from index `i` on. -/
def addOutputs (txid : Hash256) : Nat → List TransactionOutput → UTXOSet → Option UTXOSet
  | _, [], utxos => some utxos
  | i, output :: rest, utxos =>
    if i > uint32Max then none
    else (utxos.add ⟨txid, UInt32.ofNat i⟩ output).bind (addOutputs txid (i + 1) rest)

/-! ## Coinbase transactions -/

def czrAtomicUnits : UInt64 := 100000000

def czrMaxSupply : UInt64 := 21000000 * czrAtomicUnits

def czrInitialSubsidy : UInt64 := 50 * czrAtomicUnits

def czrHalvingInterval : UInt64 := 210000

def isZeroHash (hash : Hash256) : Bool := hash.1.all (· == 0)

def blockSubsidy (height : UInt64) : UInt64 :=
  if height = 0 then 0
  else
    let halvings := height / czrHalvingInterval
    if halvings ≥ 64 then 0 else czrInitialSubsidy >>> halvings

def makeCoinbaseTransaction (height : UInt64) (recipient : Bytes) (extraNonce : UInt64) : Result Transaction :=
  if height = 0 then fail "genesis block cannot use normal coinbase"
  else if recipient.isEmpty then fail "coinbase recipient is empty"
  else .ok {
    version := 1
    coinbaseData := writeU64 extraNonce
    inputs := [⟨Hash256.zero, 0xffffffff⟩]
    outputs := [⟨blockSubsidy height, recipient⟩]
    witness := [] }

def isCoinbaseTransaction (tx : Transaction) : Bool :=
  match tx.inputs with
  | [input] => if input.outputIndex ≠ 0xffffffff then false else isZeroHash input.previousTxid
  | _ => false

def validateCoinbaseTransaction (tx : Transaction) (height : UInt64) : Bool :=
  if !isCoinbaseTransaction tx then false
  else if height = 0 then false
  else match tx.outputs with
    | [output] =>
      if output.amount ≠ blockSubsidy height then false
      else if output.recipient.isEmpty then false
      else true
    | _ => false

def validateCoinbasePositionAndReward (transactions : List Transaction) (height : UInt64) : Bool :=
  match transactions with
  | [] => false
  | coinbase :: rest =>
    if !isCoinbaseTransaction coinbase then false
    else if !validateCoinbaseTransaction coinbase height then false
    else rest.all fun tx => !isCoinbaseTransaction tx

/-! ## Ownership -/

/-- `CAESAR_TX_INPUT_SIGNATURE_V1` -/
def signingDomain : Bytes := asciiBytes
  ['C', 'A', 'E', 'S', 'A', 'R', '_', 'T', 'X', '_', 'I', 'N', 'P', 'U', 'T', '_',
   'S', 'I', 'G', 'N', 'A', 'T', 'U', 'R', 'E', '_', 'V', '1']

def transactionSigningMessage (tx : Transaction) (inputIndex : Nat) : Result Bytes :=
  if inputIndex ≥ tx.inputs.length then .error (.outOfRange "input index out of range")
  else do
    let domain ← writeString signingDomain
    let base ← tx.serializeBinary
    if inputIndex > uint32Max then .error (.outOfRange "input index exceeds protocol limit")
    else pure (domain ++ base ++ writeSize inputIndex)

section
variable (K : Crypto)

def verifyTransactionInputSignature (tx : Transaction) (inputIndex : Nat) (key : PKey)
    (signature : Bytes) : Result Bool :=
  if inputIndex ≥ tx.inputs.length then .ok false
  else do
    let message ← transactionSigningMessage tx inputIndex
    pure (verifySignature K key message signature)

def publicKeyToAddress (publicKey : Bytes) : Bytes := addressFromPublicKey K publicKey

def verifyUtxoOwnership (previousOutput : TransactionOutput) (publicKey : Bytes) : Bool :=
  if previousOutput.recipient.isEmpty || publicKey.isEmpty then false
  else previousOutput.recipient = publicKeyToAddress K publicKey

/-- The loop over the inputs from index `i` on, each with its key, key text and signature. -/
def verifyInputs (tx : Transaction) (utxos : UTXOSet) :
    Nat → List (TransactionInput × PKey × Bytes × Bytes) → Result Bool
  | _, [] => .ok true
  | i, (input, key, publicKeyData, signature) :: rest =>
    match utxos.get input.point with
    | none => .ok false
    | some previous =>
      if !verifyUtxoOwnership K previous publicKeyData then .ok false
      else do
        let valid ← verifyTransactionInputSignature K tx i key signature
        if !valid then pure false else verifyInputs tx utxos (i + 1) rest

def validateSignedTransactionOwnership (tx : Transaction) (utxos : UTXOSet) (publicKeys : List PKey)
    (publicKeyData signatures : List Bytes) : Result Bool :=
  if !tx.validate then .ok false
  else if publicKeys.length ≠ tx.inputs.length then .ok false
  else if publicKeyData.length ≠ tx.inputs.length then .ok false
  else if signatures.length ≠ tx.inputs.length then .ok false
  else if !validateTransactionAgainstUtxo tx utxos then .ok false
  else verifyInputs K tx utxos 0 (tx.inputs.zip (publicKeys.zip (publicKeyData.zip signatures)))

/-- The loop that parses the witness keys; `none` is its jump to the cleanup, which also catches. -/
def witnessKeys : List TransactionWitness → Option (List PKey)
  | [] => some []
  | item :: rest =>
    if item.publicKey.isEmpty || item.signature.isEmpty then none
    else match publicKeyFromHex K item.publicKey with
      | .error _ => none
      | .ok key => (witnessKeys rest).map (key :: ·)

def validateTransactionWitness (tx : Transaction) (utxos : UTXOSet) : Result Bool :=
  if !tx.validate then .ok false
  else if tx.witness.length ≠ tx.inputs.length then .ok false
  else match witnessKeys K tx.witness with
    | none => .ok false
    | some publicKeys =>
      validateSignedTransactionOwnership K tx utxos publicKeys (tx.witness.map (·.publicKey))
        (tx.witness.map (·.signature))

end

end Caesar
