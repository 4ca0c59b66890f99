import Caesar.Lib.Flood
import Caesar.Announce

/-!
# A mesh of nodes

Nodes with their connections and the frames on them. A reader takes the next
frame of its connection and handles it; what a node accepts it passes on: a block
to all peers but the one it came from, a transaction to all peers. Connections
are sound, so a send fails only for its size, and a handler that throws ends the
connection on its side.
-/

namespace Caesar

open Codec Flood

/-- The peers of a node are in the order in which its table is walked; `ids` are the numbers it has given them. -/
structure Mesh (K : Crypto) (N : Type) where
  node : N → Node K
  peers : N → List N
  ids : N → N → UInt64
  wires : Wires N P2PFrame

namespace Mesh

variable {K : Crypto} {N : Type} [DecidableEq N]

def setNode (mesh : Mesh K N) (n : N) (node : Node K) : Mesh K N := { mesh with node := Function.update mesh.node n node }

def put (mesh : Mesh K N) (src dst : N) (frame : P2PFrame) : Mesh K N :=
  { mesh with wires := mesh.wires.put src dst frame }

/-! ## Passing on -/

/-- The first send that throws ends the loop. -/
def broadcast (n : N) (frame : P2PFrame) : List N → Mesh K N → Mesh K N
  | [], mesh => mesh
  | peer :: rest, mesh =>
    match sendFrame frame with
    | .error _ => mesh
    | .ok sent => broadcast n frame rest (mesh.put n peer sent)

/-- A send that throws is passed over. -/
def broadcastExcept (n excluded : N) (frame : P2PFrame) : List N → Mesh K N → Mesh K N
  | [], mesh => mesh
  | peer :: rest, mesh =>
    if peer = excluded then broadcastExcept n excluded frame rest mesh
    else match sendFrame frame with
      | .error _ => broadcastExcept n excluded frame rest mesh
      | .ok sent => broadcastExcept n excluded frame rest (mesh.put n peer sent)

def announce (n : N) (frame : Result P2PFrame) (mesh : Mesh K N) : Mesh K N :=
  match frame with
  | .error _ => mesh
  | .ok frame => mesh.broadcast n frame (mesh.peers n)

def gossip (n sender : N) (block : Block) (mesh : Mesh K N) : Mesh K N :=
  match makeBlocksFrame block with
  | .error _ => mesh
  | .ok frame => mesh.broadcastExcept n sender frame (mesh.peers n)

/-! ## Calls on a node -/

def acceptTransaction (n : N) (tx : Transaction) (mesh : Mesh K N) : Mesh K N :=
  let result := (mesh.node n).acceptTransaction tx
  let mesh := mesh.setNode n result.2
  match result.1 with
  | .ok .none => mesh.announce n (Node.makeTransactionFrame tx)
  | _ => mesh

def commitMined (n : N) (candidate : Block) (mesh : Mesh K N) : Mesh K N :=
  let result := (mesh.node n).commitMined candidate
  let mesh := mesh.setNode n result.2
  match result.1 with
  | .ok () => mesh.announce n (makeBlocksFrame candidate)
  | .error _ => mesh

def submitPoolSolution (n : N) (candidate : Block) (mesh : Mesh K N) : Mesh K N :=
  let result := (mesh.node n).submitPoolSolution candidate
  let mesh := mesh.setNode n result.2
  match result.1 with
  | .ok true => mesh.announce n (makeBlocksFrame candidate)
  | _ => mesh

/-- A round of the thread that asks the peers for headers every twenty seconds, for one peer. -/
def requestHeaders (n peer : N) (mesh : Mesh K N) : Mesh K N :=
  if peer ∈ mesh.peers n then (mesh.node n).requestHeaders.sent.foldl (fun mesh frame => mesh.put n peer frame) mesh
  else mesh

/-! ## Readers -/

/-- The blocks that `handle_blocks` has appended. -/
def accepted (before after : BlockchainStorage) : List Block := (after.getD []).drop (before.getD []).length

def handleBlocks (src dst : N) (payload : Bytes) (mesh : Mesh K N) : Result Unit × Mesh K N :=
  let before := (mesh.node dst).storage
  let result := (mesh.node dst).handleBlocks payload
  let mesh := mesh.setNode dst result.2
  match result.1 with
  | .error e => (.error e, mesh)
  | .ok () => (.ok (), (accepted before result.2.storage).foldl (fun mesh block => mesh.gossip dst src block) mesh)

def handleTransaction (dst : N) (payload : Bytes) (mesh : Mesh K N) : Mesh K N :=
  if payload.isEmpty || payload.length > czrP2PMaxPayload then mesh
  else match Transaction.deserializeFull payload with
    | .error _ => mesh
    | .ok tx => mesh.acceptTransaction dst tx

def handleFrame (choice : Node.Choice K) (src dst : N) (frame : P2PFrame) (mesh : Mesh K N) : Result Unit × Mesh K N :=
  match frame.type with
  | .blocks => mesh.handleBlocks src dst frame.payload
  | .transaction => (.ok (), mesh.handleTransaction dst frame.payload)
  | _ =>
    let outcome := (mesh.node dst).handleFrame choice (mesh.ids dst src) frame
    (outcome.result, outcome.sent.foldl (fun mesh frame => mesh.put dst src frame) (mesh.setNode dst outcome.node))

/-- The end of the reader of `dst` for `src`: it takes the peer from the table, and reads nothing more. -/
def hangUp (src dst : N) (mesh : Mesh K N) : Mesh K N :=
  { mesh with
    peers := Function.update mesh.peers dst ((mesh.peers dst).filter fun peer => peer ≠ src)
    wires := Function.update mesh.wires src (Function.update (mesh.wires src) dst []) }

def read (choice : Node.Choice K) (src dst : N) (mesh : Mesh K N) : Mesh K N :=
  if src ∈ mesh.peers dst then
    match mesh.wires src dst with
    | [] => mesh
    | frame :: _ =>
      let handled := { mesh with wires := mesh.wires.receive src dst }.handleFrame choice src dst frame
      match handled.1 with
      | .ok () => handled.2
      | .error e => if e.mentionsTimeout then handled.2 else handled.2.hangUp src dst
  else mesh

/-! ## Runs -/

inductive Event (K : Crypto) (N : Type) where
  | acceptTransaction (n : N) (tx : Transaction)
  | commitMined (n : N) (candidate : Block)
  | submitPoolSolution (n : N) (candidate : Block)
  | requestHeaders (n peer : N)
  | read (choice : Node.Choice K) (src dst : N)
  /-- The reader finds the connection broken. -/
  | lost (src dst : N)

def step (mesh : Mesh K N) : Event K N → Mesh K N
  | .acceptTransaction n tx => mesh.acceptTransaction n tx
  | .commitMined n candidate => mesh.commitMined n candidate
  | .submitPoolSolution n candidate => mesh.submitPoolSolution n candidate
  | .requestHeaders n peer => mesh.requestHeaders n peer
  | .read choice src dst => mesh.read choice src dst
  | .lost src dst => mesh.hangUp src dst

def run (mesh : Mesh K N) (events : List (Event K N)) : Mesh K N := events.foldl step mesh

end Mesh

end Caesar
