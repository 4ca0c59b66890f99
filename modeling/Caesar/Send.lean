import Caesar.Auth
import Caesar.Payout

/-!
# Sending coins

`/api/send` looks for the fields of its body by their quoted names, cuts their
values out by single bytes, and builds and signs a transaction that pays the
amount to the recipient and the rest back to the wallet.
-/

namespace Caesar

open Codec Text

/-! ## The fields of the body -/

/-- A value from its first quote or digit on: up to the next quote, or up to a comma or a brace. -/
def fieldText : Bytes → Option Bytes
  | [] => none
  | 34 :: rest => (cut 34 rest).map Prod.fst
  | text =>
    if text.any fun b => b = 44 || b = 125 then some (text.takeWhile fun b => b != 44 && b != 125) else none

/-- `get_field`, which passes over everything between the colon and the first quote or digit. -/
def getField (key : String) (body : Bytes) : Bytes :=
  (((suffixFrom (quoted key) body).bind (cut 58)).bind fun found =>
    fieldText (found.2.dropWhile fun b => b != 34 && !isDigit b)).getD []

/-! ## The transaction -/

/-- `my_address`: a wallet without a key has the empty address. -/
def PoolWallet.myAddress (K : Crypto) (wallet : PoolWallet) : Bytes :=
  match wallet.publicKey with
  | .error _ => []
  | .ok publicKey => addressFromPublicKey K publicKey

def changeOutputs (K : Crypto) (wallet : PoolWallet) (change : UInt64) : Result (List TransactionOutput) :=
  if change > 0 then wallet.publicKey.map fun publicKey => [⟨change, addressFromPublicKey K publicKey⟩] else pure []

/-- From the unspent outputs to the signed transaction. -/
def buildSend (K : Crypto) (wallet : PoolWallet) (amount : UInt64) (recipient : Bytes) (utxos : List WalletUtxo) :
    Result Transaction :=
  let total := utxos.foldl (fun total utxo => total + utxo.amount) 0
  if total < amount then fail "insufficient balance"
  else
    let (inputs, gathered) := gatherInputs amount utxos [] 0
    do
      let back ← changeOutputs K wallet (gathered - amount)
      let publicKey ← wallet.publicKey
      signInputs wallet publicKey (List.range inputs.length) ⟨1, [], inputs, ⟨amount, recipient⟩ :: back, []⟩

/-! ## The call -/

inductive SendReply where
  | sent (txid : Bytes)
  | failed (status : Nat) (error : String)
  deriving DecidableEq

def SendReply.isSent : SendReply → Bool
  | sent _ => true
  | failed _ _ => false

structure SendCall (K : Crypto) (V : VaultLib) where
  node : Node K
  connections : List Connection
  walk : Walk K
  coins : CoinWalk
  auth : AuthState V
  wallet : Option PoolWallet
  cookie : Bytes
  origin : Bytes
  body : Bytes

namespace SendCall

variable {K : Crypto} {V : VaultLib} (call : SendCall K V)

/-- The amount of the body. `std::stoull` throws an exception with its own name. -/
def amount : Result UInt64 :=
  let text := getField "amount" call.body
  if (getField "recipient" call.body).isEmpty || text.isEmpty then fail "missing recipient or amount"
  else match stoull text with
    | none => fail "stoull"
    | some amount => if amount = 0 then fail "amount must be > 0" else pure amount

/-- The call up to the submission. -/
def build : Result Transaction :=
  match call.wallet with
  | none => fail "wallet unavailable"
  | some wallet => do
    let amount ← call.amount
    let recipient := getField "recipient" call.body
    if !isValidAddress K recipient then fail "invalid recipient address"
    else do
      let utxos ← call.node.collectMyUtxos call.walk call.coins (wallet.myAddress K)
      buildSend K wallet amount recipient utxos

def apiSend : SendReply × Node K :=
  if !call.auth.isAuthenticated call.cookie then (.failed 401 "unauthorized", call.node)
  else if !isCsrfSafe call.origin then (.failed 403 "csrf", call.node)
  else match call.build with
    | .error e => (.failed 500 e.what, call.node)
    | .ok tx =>
      match call.node.submitTransaction call.connections tx with
      | (.error e, node) => (.failed 500 e.what, node)
      | (.ok false, node) => (.failed 500 "mempool rejected transaction", node)
      | (.ok true, node) =>
        match tx.txid K with
        | .error e => (.failed 500 e.what, node)
        | .ok txid => (.sent (hashToHex txid), node)

end SendCall

end Caesar
