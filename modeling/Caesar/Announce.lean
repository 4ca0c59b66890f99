import Caesar.Wire

/-!
# Announcing what was accepted

The calls that accept a transaction or a block send it to every peer once their
locks are released. The loop over the peers ends at the first one that throws,
and its exception is the call's.
-/

namespace Caesar

open Codec

/-- A connected peer, by what `send_all` does with the bytes of a frame. -/
abbrev Connection := Bytes → Result Unit

def Connection.sendFrame (connection : Connection) (frame : P2PFrame) : Result Unit := do
  let encoded ← frame.serializeBinary
  connection encoded

def broadcast : List Connection → P2PFrame → Result Unit
  | [], _ => .ok ()
  | connection :: rest, frame => do
    connection.sendFrame frame
    broadcast rest frame

def makeBlocksFrame (block : Block) : Result P2PFrame := do
  let encoded ← block.serializeFullBinary
  if encoded.length > uint32Max then fail "serialized block too large"
  else pure ⟨.blocks, writeSize 1 ++ writeSized encoded⟩

def announceBlock (connections : List Connection) (block : Block) : Result Unit := do
  let frame ← makeBlocksFrame block
  broadcast connections frame

def announceTransaction (connections : List Connection) (tx : Transaction) : Result Unit := do
  let frame ← Node.makeTransactionFrame tx
  broadcast connections frame

namespace Node

variable {K : Crypto}

/-- A call with what follows it when it committed; an exception there leaves the node as committed. -/
def announcing {α : Type} (committed : α → Bool) (announce : Result Unit) (call : Result α × Node K) :
    Result α × Node K :=
  match call.1 with
  | .error _ => call
  | .ok a => if committed a then (announce.map fun _ => a, call.2) else call

/-- The whole of `accept_transaction`. -/
def acceptAndAnnounce (connections : List Connection) (tx : Transaction) (node : Node K) :
    Result MempoolRejectReason × Node K :=
  announcing (fun reason => reason = .none) (announceTransaction connections tx) (node.acceptTransaction tx)

def submitTransaction (connections : List Connection) (tx : Transaction) (node : Node K) : Result Bool × Node K :=
  let result := node.acceptAndAnnounce connections tx
  (result.1.map fun reason => reason = .none, result.2)

/-- The whole of `submit_pool_solution`. -/
def submitAndAnnounce (connections : List Connection) (candidate : Block) (node : Node K) : Result Bool × Node K :=
  announcing id (announceBlock connections candidate) (node.submitPoolSolution candidate)

/-- `mine_one_block` from where it takes the locks again, to its end. -/
def commitAndAnnounce (connections : List Connection) (candidate : Block) (node : Node K) : Result Unit × Node K :=
  announcing (fun _ => true) (announceBlock connections candidate) (node.commitMined candidate)

end Node

end Caesar
