import Caesar.Transaction
import Mathlib.Data.List.Sort

/-!
# Proof of work, difficulty and blocks
-/

namespace Caesar

open Codec

/-! ## Proof of work -/

def czrPowVersion : UInt32 := 2

def czrPowMemoryWords : Nat := 65536

def czrPowRounds : Nat := 4

def powMix64 (x : UInt64) : UInt64 :=
  let x := x ^^^ (x >>> 30)
  let x := x * 0xbf58476d1ce4e5b9
  let x := x ^^^ (x >>> 27)
  let x := x * 0x94d049bb133111eb
  x ^^^ (x >>> 31)

def powLoad64 (state : Hash256) (offset : Nat) : UInt64 :=
  (List.range 8).foldl (fun value i =>
    value ||| ((state.1.getD ((offset + i) % 32) 0).toUInt64 <<< UInt64.ofNat (i * 8))) 0

def powWord (memory : Array UInt64) (index : UInt64) : UInt64 :=
  memory.getD (index.toNat % czrPowMemoryWords) 0

def powFill (state : Hash256) (nonce : UInt64) : Array UInt64 :=
  let seed := powLoad64 state 0 ^^^ powLoad64 state 8 ^^^ nonce
  (List.range czrPowMemoryWords).foldl (fun memory i =>
    let previous := if i = 0 then seed else memory.getD (i - 1) 0
    memory.push (powMix64 (previous ^^^ powLoad64 state (i &&& 24) ^^^
      (UInt64.ofNat i * 0x9e3779b97f4a7c15) ^^^ nonce))) #[]

/-- One pass over the memory: the memory and the accumulator after it. -/
def powMixMemory (nonce : UInt64) (round : Nat) (memory : Array UInt64) (accumulator : UInt64) :
    Array UInt64 × UInt64 :=
  (List.range czrPowMemoryWords).foldl (fun (memory, accumulator) i =>
    let index := (powMix64 (accumulator ^^^ memory.getD i 0 ^^^ nonce ^^^ UInt64.ofNat round)).toNat %
      czrPowMemoryWords
    let other := (index ^^^ (i * 0x9e3779b9)) % czrPowMemoryWords
    let mixed := powMix64 (memory.getD index 0 ^^^ memory.getD other 0 ^^^ accumulator ^^^ UInt64.ofNat i)
    (memory.set! index mixed, powMix64 (accumulator ^^^ mixed))) (memory, accumulator)

section
variable (K : Crypto)

def powRound (nonce : UInt64) (memory : Array UInt64) (state : Hash256) (round : Nat) : Array UInt64 × Hash256 :=
  let (memory, accumulator) := powMixMemory nonce round memory (powLoad64 state (round * 8))
  let words := (List.range 8).flatMap fun i => writeU64 (powWord memory (accumulator >>> UInt64.ofNat (i * 8)))
  (memory, K.sha256 (writeU64 accumulator ++ words))

def calculatePowHash (header : Bytes) (nonce : UInt64) : Hash256 :=
  let seed := K.sha256 (writeU32 czrPowVersion ++ header ++ writeU64 nonce)
  let mixed := (List.range czrPowRounds).foldl
    (fun p round => powRound K nonce p.1 p.2 round) (powFill seed nonce, seed)
  let words := (List.range 8).flatMap fun i => writeU64 (powWord mixed.1 (powLoad64 mixed.2 (i * 4)))
  K.sha256 (writeU32 czrPowVersion ++ mixed.2.1 ++ writeU64 nonce ++ words)

end

/-- The zero bits above the highest set bit of a byte, from bit `7` down. -/
def leadingZerosOfByte (byte : UInt8) : Nat :=
  ((List.range 8).takeWhile fun i => byte &&& ((1 : UInt8) <<< UInt8.ofNat (7 - i)) == 0).length

def countLeadingZeros : Bytes → Nat
  | [] => 0
  | byte :: rest => if byte = 0 then 8 + countLeadingZeros rest else leadingZerosOfByte byte

def countLeadingZeroBits (hash : Hash256) : UInt32 := UInt32.ofNat (countLeadingZeros hash.1)

def powMeetsDifficulty (hash : Hash256) (difficulty : UInt32) : Bool :=
  if difficulty > 256 then false else countLeadingZeroBits hash ≥ difficulty

def validatePow (K : Crypto) (header : Bytes) (nonce : UInt64) (difficulty : UInt32) : Bool :=
  powMeetsDifficulty (calculatePowHash K header nonce) difficulty

/-- The search of `mine_pow`, with `i` attempts made and `attempts` left. -/
def minePowLoop (K : Crypto) (header : Bytes) (difficulty : UInt32) (startNonce : UInt64) :
    Nat → UInt64 → Option (UInt64 × Hash256)
  | 0, _ => none
  | attempts + 1, i =>
    if startNonce > uint64Max - i then none
    else
      let nonce := startNonce + i
      let hash := calculatePowHash K header nonce
      if powMeetsDifficulty hash difficulty then some (nonce, hash)
      else minePowLoop K header difficulty startNonce attempts (i + 1)

def minePow (K : Crypto) (header : Bytes) (difficulty : UInt32) (startNonce maxAttempts : UInt64) :
    Option (UInt64 × Hash256) :=
  if difficulty > 256 then none else minePowLoop K header difficulty startNonce maxAttempts.toNat 0

/-! ## Difficulty adjustment -/

def czrDifficultyWindow : Nat := 11

def czrTargetBlockTime : UInt64 := 120

def czrMinDifficulty : UInt32 := 8

def czrInitialMiningDifficulty : UInt32 := 12

def czrMaxDifficulty : UInt32 := 256

def czrEasyForkHeight : Nat := 19

def czrEasyForkDifficulty : UInt32 := 13

def difficultyMedianInterval (intervals : List UInt64) : UInt64 :=
  if intervals.length ≠ czrDifficultyWindow then 0
  else (intervals.insertionSort (· ≤ ·)).getD (intervals.length / 2) 0

/-- The loop that lowers the difficulty; each turn halves `observed`. -/
def easeLoop : Nat → UInt64 → UInt32 → UInt32
  | 0, _, next => next
  | fuel + 1, observed, next =>
    if observed ≥ czrTargetBlockTime * 2 ∧ next > czrMinDifficulty then easeLoop fuel (observed / 2) (next - 1)
    else next

/-- The loop that raises the difficulty; each turn doubles `observed`. -/
def hardenLoop : Nat → UInt64 → UInt32 → UInt32
  | 0, _, next => next
  | fuel + 1, observed, next =>
    if observed * 2 ≤ czrTargetBlockTime ∧ next < czrMaxDifficulty then hardenLoop fuel (observed * 2) (next + 1)
    else next

/-- `observed` is between 30 and 480, so either loop takes at most two turns. -/
def adjustDifficultyWindow (currentDifficulty : UInt32) (intervals : List UInt64) : UInt32 :=
  if currentDifficulty > czrMaxDifficulty ∨ intervals.length ≠ czrDifficultyWindow then currentDifficulty
  else
    let observed := difficultyMedianInterval intervals
    let observed := if observed = 0 then 1 else observed
    let observed := max (czrTargetBlockTime / 4) (min observed (czrTargetBlockTime * 4))
    if observed > czrTargetBlockTime then easeLoop 3 observed currentDifficulty
    else if observed < czrTargetBlockTime then hardenLoop 3 observed currentDifficulty
    else currentDifficulty

/-! ## Blocks -/

structure BlockHeader where
  version : UInt32
  height : UInt64
  previousHash : Hash256
  merkleRoot : Hash256
  witnessRoot : Hash256
  timestamp : UInt64
  nonce : UInt64
  difficulty : UInt32
  deriving DecidableEq, Repr

def BlockHeader.serializeBinary (header : BlockHeader) : Bytes :=
  writeU32 header.version ++ (writeU64 header.height ++ (header.previousHash.1 ++ (header.merkleRoot.1 ++
    (header.witnessRoot.1 ++ (writeU64 header.timestamp ++ (writeU64 header.nonce ++
      writeU32 header.difficulty))))))

def readHeader : Reader Error BlockHeader := readU32.andThen fun version => readU64.andThen fun height =>
  readHash.andThen fun previousHash => readHash.andThen fun merkleRoot => readHash.andThen fun witnessRoot =>
  readU64.andThen fun timestamp => readU64.andThen fun nonce => readU32.andThen fun difficulty s =>
    .ok (⟨version, height, previousHash, merkleRoot, witnessRoot, timestamp, nonce, difficulty⟩, s)

def BlockHeader.deserializeBinary (data : Bytes) : Result BlockHeader :=
  readAll readHeader "trailing bytes after block header" data

structure Block where
  header : BlockHeader
  transactions : List Transaction
  deriving DecidableEq, Repr

def serializeBlockTransaction (tx : Transaction) : Result Bytes := do
  let data ← tx.serializeFullBinary
  if data.length > uint32Max then fail "serialized transaction too large"
  else pure (writeSize data.length ++ data)

def Block.serializeFullBinary (block : Block) : Result Bytes :=
  if block.transactions.length > uint32Max then fail "too many block transactions"
  else do
    let transactions ← block.transactions.mapM serializeBlockTransaction
    pure (block.header.serializeBinary ++ (writeSize block.transactions.length ++ transactions.flatten))

def readBlockTransaction : Reader Error Transaction :=
  (readCount decodeLimit "serialized transaction too large").andThen fun size =>
    (readRaw size).andThen fun data s =>
      match Transaction.deserializeFull data with
      | .ok tx => .ok (tx, s)
      | .error e => .error e

def readBlock : Reader Error Block := readHeader.andThen fun header =>
  (readCount decodeLimit "too many block transactions").andThen fun count =>
    (readMany readBlockTransaction count).andThen fun transactions s => .ok (⟨header, transactions⟩, s)

def Block.deserializeFull (data : Bytes) : Result Block :=
  readAll readBlock "trailing bytes after full block" data

section
variable (K : Crypto)

def BlockHeader.hash (header : BlockHeader) : Hash256 := K.sha256 header.serializeBinary

def Block.hash (block : Block) : Hash256 := block.header.hash K

def Block.calculateMerkleRoot (block : Block) : Result Hash256 := do
  let txids ← block.transactions.mapM (Transaction.txid K)
  pure (Caesar.merkleRoot K txids)

def Block.calculateWitnessRoot (block : Block) : Result Hash256 := do
  let witnessIds ← block.transactions.mapM (Transaction.wtxid K)
  pure (Caesar.merkleRoot K witnessIds)

def Block.updateMerkleRoot (block : Block) : Result Block := do
  let merkleRoot ← block.calculateMerkleRoot K
  let witnessRoot ← block.calculateWitnessRoot K
  pure { block with header := { block.header with merkleRoot := merkleRoot, witnessRoot := witnessRoot } }

def Block.validateMerkleRoot (block : Block) : Result Bool := do
  let root ← block.calculateMerkleRoot K
  pure (block.header.merkleRoot = root)

def Block.validateWitnessRoot (block : Block) : Result Bool := do
  let root ← block.calculateWitnessRoot K
  pure (block.header.witnessRoot = root)

def Block.powHeader (block : Block) : Bytes := { block.header with nonce := 0 }.serializeBinary

def Block.powHash (block : Block) : Hash256 := calculatePowHash K block.powHeader block.header.nonce

def Block.validatePow (block : Block) : Bool :=
  Caesar.validatePow K block.powHeader block.header.nonce block.header.difficulty

/-- `validate_merkle_root() && validate_witness_root()` -/
def Block.validateRoots (block : Block) : Result Bool := do
  let merkle ← block.validateMerkleRoot K
  if merkle then block.validateWitnessRoot K else pure false

/-- What the height `0` branch of `validate_basic` asks of a transaction. -/
def validateGenesisTransaction (tx : Transaction) : Bool :=
  if isCoinbaseTransaction tx then false
  else if tx.inputs.isEmpty then
    match tx.outputs with
    | [output] =>
      if output.amount ≠ 1 then false
      else if output.recipient.isEmpty then false
      else tx.witness.isEmpty
    | _ => false
  else tx.validate

def Block.validateBasic (block : Block) : Result Bool :=
  if block.header.version = 0 then .ok false
  else if !block.validatePow K then .ok false
  else if block.header.height = 0 then
    if !isZeroHash block.header.previousHash then .ok false
    else if !block.transactions.all validateGenesisTransaction then .ok false
    else if block.transactions.isEmpty then .ok false
    else block.validateRoots K
  else if !validateCoinbasePositionAndReward block.transactions block.header.height then .ok false
  else if !block.transactions.tail.all Transaction.validate then .ok false
  else block.validateRoots K

end

/-! ## Expected difficulty -/

/-- The interval loop over the indices `is`; `none` is an early `return`. -/
def collectIntervals (chain : List Block) : List Nat → Option (List UInt64)
  | [] => some []
  | i :: is =>
    if i = 0 then none
    else match chain[i]?, chain[i - 1]? with
      | some current, some previous =>
        if current.header.timestamp < previous.header.timestamp then none
        else (collectIntervals chain is).map ((current.header.timestamp - previous.header.timestamp) :: ·)
      | _, _ => none

def expectedDifficultyAtPosition (chain : List Block) (position : Nat) : UInt32 :=
  if position ≥ czrEasyForkHeight ∧ position < czrEasyForkHeight + czrDifficultyWindow then czrEasyForkDifficulty
  else if position ≥ 40 then 8
  else if position = 0 ∨ position > chain.length then czrInitialMiningDifficulty
  else match chain[position - 1]? with
    | none => czrInitialMiningDifficulty
    | some previous =>
      if previous.header.height = 0 ∧ previous.header.difficulty = 0 then czrInitialMiningDifficulty
      else if position < czrDifficultyWindow + 1 then previous.header.difficulty
      else
        match collectIntervals chain (List.range' (position - czrDifficultyWindow) czrDifficultyWindow) with
        | none => previous.header.difficulty
        | some intervals => adjustDifficultyWindow previous.header.difficulty intervals

def expectedNextDifficulty (chain : List Block) : UInt32 := expectedDifficultyAtPosition chain chain.length

end Caesar
