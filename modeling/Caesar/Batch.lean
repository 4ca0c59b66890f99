import Caesar.Lib.InPlace
import Caesar.Relay

/-!
# A batch of blocks, with what is changed in place

`apply_block_transactions_in_place_after_basic_validation` changes the UTXO set
as it goes and `add_coinbase_issuance` the total, and neither takes anything back
when it fails. The loop of `handle_blocks` gives them copies.
-/

namespace Caesar

open InPlace

def spendInPlace : List TransactionInput → Routine Error UTXOSet
  | [] => done
  | input :: rest => andThen (attempt fun utxos => utxos.spend input.point) (spendInPlace rest)

def addInPlace (txid : Hash256) : Nat → List TransactionOutput → Routine Error UTXOSet
  | _, [] => done
  | i, output :: rest =>
    if i > uint32Max then check fun _ => .ok false
    else andThen (attempt fun utxos => utxos.add ⟨txid, UInt32.ofNat i⟩ output) (addInPlace txid (i + 1) rest)

def issueInPlace : List TransactionOutput → Routine Error UInt64
  | [] => done
  | output :: rest =>
    andThen (attempt fun total => if output.amount > czrMaxSupply - total then none else some (total + output.amount))
      (issueInPlace rest)

section
variable (K : Crypto)

def applyTransactionInPlace (tx : Transaction) : Routine Error UTXOSet :=
  if isCoinbaseTransaction tx then check fun _ => .ok false
  else andThen (check (validateTransactionWitness K tx))
    (andThen (spendInPlace tx.inputs) (using_ (tx.txid K) fun txid => addInPlace txid 0 tx.outputs))

def applyTransactionsInPlace : List Transaction → Routine Error UTXOSet
  | [] => done
  | tx :: rest => andThen (applyTransactionInPlace K tx) (applyTransactionsInPlace rest)

def applyBlockInPlace (block : Block) : Routine Error UTXOSet :=
  match block.transactions with
  | [] => check fun _ => .ok false
  | coinbase :: rest =>
    if !validateCoinbaseTransaction coinbase block.header.height then check fun _ => .ok false
    else andThen (using_ (coinbase.txid K) fun txid => addInPlace txid 0 coinbase.outputs)
      (applyTransactionsInPlace K rest)

def issueBlockInPlace (block : Block) : Routine Error UInt64 :=
  match block.transactions with
  | [] => done
  | coinbase :: _ => if !isCoinbaseTransaction coinbase then done else issueInPlace coinbase.outputs

/-- One round of the loop. What the routines leave in the copies is kept only when both succeed. -/
def Node.relayBlockInPlace (st : Node.RelayState) (block : Block) : Result Node.RelayState := do
  let basic ← block.validateBasic K
  if !basic then pure st
  else match st.chain.getLast? with
    | none => pure st
    | some previous =>
      if block.header.height ≠ previous.header.height + 1 then pure st
      else if block.header.previousHash ≠ previous.hash K then pure st
      else if block.header.timestamp < previous.header.timestamp then pure st
      else if block.header.difficulty ≠ expectedNextDifficulty st.chain then pure st
      else do
        let (issued, candidateTotal) := issueBlockInPlace block st.totalIssued
        if !(← issued) then pure st
        else do
          let (applied, candidateUtxos) := applyBlockInPlace K block st.utxos
          if !(← applied) then pure st else pure ⟨st.chain ++ [block], candidateUtxos, candidateTotal⟩

end

end Caesar
