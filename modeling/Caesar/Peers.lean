import Mathlib.Data.Finset.Basic
import Mathlib.Data.Finset.Card
import Caesar.Wire

/-!
# Peers and their readers

A connection gets a fresh id, an entry in the peer table and a reader. The
reader ends when a handler throws or the connection fails; it then leaves the
set of readers and takes its peer out of the table.
-/

namespace Caesar

open Codec

def maxPeers : Nat := 64

/-- The relay with the keys of its peer table. -/
structure Network (K : Crypto) where
  node : Node K
  peers : Finset UInt64
  activeReaders : Finset UInt64
  nextId : UInt64
  running : Bool

inductive NetworkEvent (K : Crypto) where
  -- a connection that the table does not turn down for its endpoint
  | connect
  | frame (id : UInt64) (choice : Node.Choice K) (frame : P2PFrame)
  -- receiving fails, or sending in a handler, which then leaves the node as it was
  | closed (id : UInt64)
  | removePeer (id : UInt64)
  | call (call : Call K)
  | start
  | stop

namespace Network

variable {K : Crypto}

def addPeer (net : Network K) : Network K :=
  if net.peers.card ≥ maxPeers then net
  else
    { net with
      peers := insert net.nextId net.peers
      nextId := net.nextId + 1
      activeReaders := if net.running then insert net.nextId net.activeReaders else net.activeReaders }

def exitReader (id : UInt64) (net : Network K) : Network K :=
  { net with
    activeReaders := net.activeReaders.erase id
    peers := if net.running then net.peers.erase id else net.peers }

def handle (id : UInt64) (choice : Node.Choice K) (frame : P2PFrame) (net : Network K) : Network K :=
  let outcome := net.node.handleFrame choice id frame
  let net := { net with node := outcome.node }
  match outcome.result with
  | .ok () => net
  | .error e => if e.mentionsTimeout then net else net.exitReader id

def step (net : Network K) : NetworkEvent K → Network K
  | .connect => net.addPeer
  | .frame id choice frame => if id ∈ net.activeReaders then net.handle id choice frame else net
  | .closed id => if id ∈ net.activeReaders then net.exitReader id else net
  | .removePeer id => { net with peers := net.peers.erase id }
  | .call call => { net with node := net.node.call call }
  | .start => { net with running := true }
  -- every reader is joined before the sessions are cleared
  | .stop =>
    if !net.running then net
    else { net with activeReaders := ∅, running := false, node := { net.node with pendingChainSyncs := fun _ => none } }

def run (net : Network K) (events : List (NetworkEvent K)) : Network K := events.foldl step net

end Network

end Caesar
