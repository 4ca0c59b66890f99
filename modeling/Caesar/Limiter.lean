import Caesar.Lib.OrdMap
import Caesar.PeerManager

/-!
# The limit on inbound connections

`accept_loop` lets an address through a number of times in a window, which its first
connection opens, and follows a number of addresses at most. The windows that are
over are erased with every attempt.
-/

namespace Caesar

open Codec

def maxConnectionAttemptsPerIp : Nat := 8

def maxTrackedConnectionIps : Nat := 1024

/-- In nanoseconds, as the clock counts. -/
def connectionAttemptWindow : Nat := 10 * 1000000000

structure ConnectionAttemptState where
  windowStart : Nat
  attempts : Nat
  deriving DecidableEq

abbrev ConnectionAttempts := OrdMap Bytes ConnectionAttemptState

def ConnectionAttemptState.expired (now : Nat) (state : ConnectionAttemptState) : Bool :=
  now - state.windowStart ≥ connectionAttemptWindow

def eraseExpired (now : Nat) (table : ConnectionAttempts) : ConnectionAttempts := table.filter fun _ state => !state.expired now

def allowConnectionAttempt (now : Nat) (address : Bytes) (table : ConnectionAttempts) : Bool × ConnectionAttempts :=
  let table := eraseExpired now table
  match table.find? address with
  | none =>
    if table.entries.length ≥ maxTrackedConnectionIps then (false, table)
    else (true, table.insert address ⟨now, 1⟩)
  | some state =>
    if state.attempts ≥ maxConnectionAttemptsPerIp then (false, table)
    else (true, table.insert address { state with attempts := state.attempts + 1 })

/-! ## The accepting thread -/

structure InboundServer where
  server : P2PServer
  connectionAttempts : ConnectionAttempts

namespace InboundServer

/-- A turn of `accept_loop` up to the handshake. -/
def acceptConnection (host : UInt32) (port : UInt16) (s : InboundServer) : InboundServer × Option PeerTask :=
  if !s.server.running then (s, none)
  else if s.server.manager.peers.length ≥ maxPeers then (s, none)
  else
    let peerAddress := Ipv4.dotted host
    let (allowed, table) := allowConnectionAttempt s.server.now peerAddress s.connectionAttempts
    let s := { s with connectionAttempts := table }
    if !allowed then (s, none) else (s, some (.connecting peerAddress port))

def withServer (s : InboundServer) (r : P2PServer × Option PeerTask) : InboundServer × Option PeerTask :=
  ({ s with server := r.1 }, r.2)

end InboundServer

/-- The peer table behind the limit. -/
def inboundSystem : Interleave.System InboundServer PeerTask PeerCall Bool where
  spawn call s := match call with
    | .accept host port => s.acceptConnection host port
    | call => s.withServer (s.server.begin call)
  advance greeted s task := s.withServer (s.server.advance greeted task)

end Caesar
