import Caesar.Block
import Caesar.Lib.Limbs

/-!
# Chains: validation, work and replacement

The full replay of `chain_validator.hpp`, the incremental check of a block on
top of a chain, cumulative work as a 512-bit integer, and the choice between a
chain and a candidate. `Result (Option α)` is a C++ `bool` with an out parameter:
`none` is `false`, and an out parameter left half updated is never read.
-/

namespace Caesar

open Codec

/-- Continue with what a call returned, or return `false` when it did. -/
def ifSome {α β : Type} (x : Result (Option α)) (f : α → Result (Option β)) : Result (Option β) := do
  match ← x with
  | none => pure none
  | some a => f a

section
variable (K : Crypto)

/-! ## Applying a block -/

/-- The body of the loop over the transactions after the coinbase. -/
def applyTransaction (tx : Transaction) (utxos : UTXOSet) : Result (Option UTXOSet) :=
  if isCoinbaseTransaction tx then .ok none
  else do
    let valid ← validateTransactionWitness K tx utxos
    if !valid then pure none
    else match spendInputs tx.inputs utxos with
      | none => pure none
      | some spent => do
        let txid ← tx.txid K
        pure (addOutputs txid 0 tx.outputs spent)

def applyTransactions : List Transaction → UTXOSet → Result (Option UTXOSet)
  | [], utxos => .ok (some utxos)
  | tx :: rest, utxos => ifSome (applyTransaction K tx utxos) fun utxos => applyTransactions rest utxos

def applyCoinbase (coinbase : Transaction) (height : UInt64) (utxos : UTXOSet) : Result (Option UTXOSet) :=
  if !validateCoinbaseTransaction coinbase height then .ok none
  else do
    let txid ← coinbase.txid K
    pure (addOutputs txid 0 coinbase.outputs utxos)

def applyBlockTransactionsInPlaceAfterBasicValidation (block : Block) (utxos : UTXOSet) :
    Result (Option UTXOSet) :=
  match block.transactions with
  | [] => .ok none
  | coinbase :: rest => ifSome (applyCoinbase K coinbase block.header.height utxos) fun utxos =>
    applyTransactions K rest utxos

def applyBlockTransactionsCanonical (block : Block) (previousUtxos : UTXOSet) : Result (Option UTXOSet) := do
  let basic ← block.validateBasic K
  if !basic then pure none
  else applyBlockTransactionsInPlaceAfterBasicValidation K block previousUtxos

def applyBlockTransactions (block : Block) (previousUtxos : UTXOSet) : Result UTXOSet := do
  match ← applyBlockTransactionsCanonical K block previousUtxos with
  | none => fail "cannot apply invalid block"
  | some utxos => pure utxos

/-! ## Replaying a chain -/

structure ChainValidationResult where
  utxo : UTXOSet
  totalIssued : UInt64
  deriving DecidableEq

def validateGenesisCanonical (genesis : Block) : Result Bool :=
  if genesis.header.height ≠ 0 then .ok false
  else if genesis.header.previousHash ≠ Hash256.zero then .ok false
  else if genesis.header.difficulty ≠ 0 then .ok false
  else genesis.validateBasic K

def validateBlockPositionWithChain (chain : List Block) (blockIndex : Nat) : Bool :=
  if blockIndex = 0 ∨ blockIndex ≥ chain.length then false
  else match chain[blockIndex - 1]?, chain[blockIndex]? with
    | some previous, some block =>
      if block.header.height ≠ previous.header.height + 1 then false
      else if block.header.previousHash ≠ previous.hash K then false
      else if block.header.timestamp < previous.header.timestamp then false
      else block.header.difficulty = expectedDifficultyAtPosition chain blockIndex
    | _, _ => false

/-- The loop of `add_coinbase_issuance` over the outputs. -/
def addIssuedOutputs : List TransactionOutput → UInt64 → Option UInt64
  | [], total => some total
  | output :: rest, total =>
    if output.amount > czrMaxSupply - total then none else addIssuedOutputs rest (total + output.amount)

def addCoinbaseIssuance (block : Block) (totalIssued : UInt64) : Option UInt64 :=
  match block.transactions with
  | [] => some totalIssued
  | coinbase :: _ =>
    if !isCoinbaseTransaction coinbase then some totalIssued
    else addIssuedOutputs coinbase.outputs totalIssued

def rebuildLoop (chain : List Block) : Nat → List Block → UTXOSet → UInt64 → Result (Option ChainValidationResult)
  | _, [], utxos, totalIssued => .ok (some ⟨utxos, totalIssued⟩)
  | i, block :: rest, utxos, totalIssued => do
    let basic ← block.validateBasic K
    if !basic then pure none
    else if !validateBlockPositionWithChain K chain i then pure none
    else match addCoinbaseIssuance block totalIssued with
      | none => pure none
      | some totalIssued =>
        ifSome (applyBlockTransactionsInPlaceAfterBasicValidation K block utxos) fun utxos =>
          rebuildLoop chain (i + 1) rest utxos totalIssued

def validateAndRebuildChain (chain : List Block) : Result (Option ChainValidationResult) :=
  match chain with
  | [] => .ok none
  | genesis :: rest => do
    let valid ← validateGenesisCanonical K genesis
    if !valid then pure none else rebuildLoop K chain 1 rest ∅ 0

def validateCandidateChain (candidate : List Block) : Result Bool := do
  let result ← validateAndRebuildChain K candidate
  pure result.isSome

def rebuildUtxoSet (chain : List Block) : Result UTXOSet := do
  match ← validateAndRebuildChain K chain with
  | none => fail "cannot rebuild UTXO set from invalid chain"
  | some result => pure result.utxo

/-! ## A block on top of a chain -/

/-- The issuance of a chain, skipping blocks of height `0`. -/
def chainIssuance : List Block → UInt64 → Option UInt64
  | [], totalIssued => some totalIssued
  | block :: rest, totalIssued =>
    if block.header.height = 0 then chainIssuance rest totalIssued
    else (addCoinbaseIssuance block totalIssued).bind (chainIssuance rest)

def validateTotalCoinbaseIssuance (block : Block) (chain : List Block) : Bool :=
  ((chainIssuance chain 0).bind (addCoinbaseIssuance block)).isSome

def validateBlockAgainstUtxo (block : Block) (previousUtxos : UTXOSet) : Result Bool := do
  let result ← applyBlockTransactionsCanonical K block previousUtxos
  pure result.isSome

def validateBlockConsensus (block : Block) (chain : List Block) (previousUtxos : UTXOSet) : Result Bool :=
  match chain.getLast? with
  | none => .ok false
  | some previous => do
    let basic ← block.validateBasic K
    if !basic then pure false
    else if block.header.height ≠ previous.header.height + 1 then pure false
    else if block.header.previousHash ≠ previous.hash K then pure false
    else if block.header.timestamp < previous.header.timestamp then pure false
    else if block.header.difficulty ≠ expectedNextDifficulty chain then pure false
    else do
      let valid ← validateBlockAgainstUtxo K block previousUtxos
      if !valid then pure false else pure (validateTotalCoinbaseIssuance block chain)

end

/-! ## Cumulative work -/

/-- Eight 64-bit limbs, the least significant first. -/
abbrev ChainWork := { limbs : List UInt64 // limbs.length = 8 }

namespace ChainWork

def zero : ChainWork := ⟨List.replicate 8 0, by simp⟩

def powerOfTwo (exponent : UInt32) : Result ChainWork :=
  if exponent ≥ 512 then fail "chain work exponent exceeds 512 bits"
  else .ok ⟨(List.replicate 8 0).set (exponent.toNat / 64) ((1 : UInt64) <<< UInt64.ofNat (exponent.toNat % 64)),
    by simp⟩

def add (lhs rhs : ChainWork) : Result ChainWork :=
  if (Limbs.add 0 lhs.1 rhs.1).2 ≠ 0 then .error (.overflowError "cumulative chain work exceeds 512 bits")
  else .ok ⟨(Limbs.add 0 lhs.1 rhs.1).1, by rw [Limbs.add_length _ _ _ (by rw [lhs.2, rhs.2]), lhs.2]⟩

def lt (lhs rhs : ChainWork) : Bool := Limbs.lt lhs.1 rhs.1

def gt (lhs rhs : ChainWork) : Bool := rhs.lt lhs

end ChainWork

def blockWork (block : Block) : Result ChainWork :=
  if block.header.difficulty > czrMaxDifficulty then fail "invalid difficulty for chain work"
  else ChainWork.powerOfTwo block.header.difficulty

/-- The loop of `cumulative_chain_work`, with the total so far. -/
def addChainWork : List Block → ChainWork → Result ChainWork
  | [], total => .ok total
  | block :: rest, total => do
    let work ← blockWork block
    let total ← total.add work
    addChainWork rest total

def cumulativeChainWork (chain : List Block) : Result ChainWork :=
  if chain.isEmpty then fail "cannot calculate chain work for empty chain" else addChainWork chain ChainWork.zero

def hasMoreWork (candidate current : List Block) : Result Bool :=
  if candidate.isEmpty then .ok false
  else if current.isEmpty then .ok true
  else do
    let candidateWork ← cumulativeChainWork candidate
    let currentWork ← cumulativeChainWork current
    pure (candidateWork.gt currentWork)

/-! ## Replacing a chain -/

section
variable (K : Crypto)

/-- The loop of `assemble_candidate_chain` over the received blocks. -/
def assembleLoop : List (BlockHeader × Block) → Hash256 → UInt64 → Option (List Block)
  | [], _, _ => some []
  | (header, block) :: rest, previousHash, expectedHeight =>
    if header.hash K ≠ block.hash K then none
    else if block.header.previousHash ≠ previousHash then none
    else if block.header.height ≠ expectedHeight then none
    else if block.header.hash K ≠ header.hash K then none
    else (assembleLoop rest (block.hash K) (expectedHeight + 1)).map (block :: ·)

def assembleCandidateChain (current : List Block) (headers : List BlockHeader) (blocks : List Block) :
    Option (List Block) :=
  if current.isEmpty || blocks.isEmpty then none
  else match headers.head? with
    | none => none
    | some first =>
      if headers.length ≠ blocks.length then none
      else match current.findIdx? fun block => block.hash K = first.previousHash with
        | none => none
        | some ancestorIndex =>
          match current[ancestorIndex]? with
          | none => none
          | some ancestor =>
            (assembleLoop K (headers.zip blocks) (ancestor.hash K) (ancestor.header.height + 1)).map
              (current.take (ancestorIndex + 1) ++ ·)

structure ChainReplacementPlan where
  chain : List Block
  utxo : UTXOSet

def prepareChainReplacement (current candidate : List Block) : Result (Option ChainReplacementPlan) :=
  match candidate.head? with
  | none => .ok none
  | some genesis =>
    if (current.head?.map fun block => block.hash K).any (· ≠ genesis.hash K) then .ok none
    else do
      let valid ← validateCandidateChain K candidate
      if !valid then pure none
      else do
        let more ← if current.isEmpty then pure true else hasMoreWork candidate current
        if !more then pure none
        else do
          let utxo ← rebuildUtxoSet K candidate
          pure (some ⟨candidate, utxo⟩)

end

end Caesar
