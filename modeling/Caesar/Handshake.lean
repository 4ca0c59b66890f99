import Caesar.Lib.Timed
import Caesar.Messages

/-!
# The hello handshake

Each side of a new connection sends its hello and waits for the other's, for five
seconds at most. The wait polls the socket, for a whole number of milliseconds each
time. A hello is short, so sending it does not block.
-/

namespace Caesar

open Codec

/-- Times are in nanoseconds, as the clock counts. -/
def handshakeTimeout : Nat := 5 * 1000000000

def nanosPerMilli : Nat := 1000000

/-- `remaining_ms`, as a time. -/
def pollTimeout (remaining : Nat) : Nat := min (max (remaining / nanosPerMilli) 1) (2 ^ 31 - 1) * nanosPerMilli

abbrev TimedSocket := Timed.Source UInt8

abbrev SocketTurn := Timed.Turn Error

def receiveAllUntil (deadline size : Nat) (turns : List SocketTurn) (now : Nat) (socket : TimedSocket) :
    Timed.Collected Error UInt8 :=
  Timed.collect (.runtimeError "TCP receive failed: peer closed connection") pollTimeout deadline size turns ⟨now, socket, []⟩

/-- How a call with a deadline ends. `timeout` is a `P2PTimeout`, "TCP receive deadline exceeded". -/
inductive Deadlined (α : Type) where
  | ok (value : α) (now : Nat) (socket : TimedSocket) (turns : List SocketTurn)
  | ended (e : Timed.Ended Error)
  /-- the turns have run out before -/
  | waiting (now : Nat)
  deriving DecidableEq

def Deadlined.ofResult {α : Type} (result : Result α) (now : Nat) (socket : TimedSocket) (turns : List SocketTurn) :
    Deadlined α :=
  match result with
  | .error e => .ended (.failed now e)
  | .ok value => .ok value now socket turns

def receiveFrameWithDeadline (deadline : Nat) (turns : List SocketTurn) (now : Nat) (socket : TimedSocket) :
    Deadlined P2PFrame :=
  match receiveAllUntil deadline 4 turns now socket with
  | .ended e => .ended e
  | .waiting s => .waiting s.now
  | .all size turns =>
    let payloadSize := leNat size.got
    if payloadSize > czrP2PMaxPayload then .ended (.failed size.now (.runtimeError "P2P payload too large"))
    else match receiveAllUntil deadline (5 + payloadSize - 4) turns size.now size.source with
      | .ended e => .ended e
      | .waiting s => .waiting s.now
      | .all body turns => .ofResult (P2PFrame.deserializeBinary (size.got ++ body.got)) body.now body.source turns

def makeHelloFrame (hello : P2PHello) : Result P2PFrame := do
  let payload ← hello.serializeBinary
  pure ⟨.hello, payload⟩

def parseHelloFrame (frame : P2PFrame) : Result P2PHello :=
  if frame.type ≠ .hello then fail "Expected P2P hello frame" else P2PHello.deserializeBinary frame.payload

def validateHello (hello : P2PHello) (expectedNetworkId : UInt32) : Bool :=
  hello.protocolVersion = czrP2PProtocolVersion && hello.networkId = expectedNetworkId

/-- What the other side's frame is checked for. -/
def checkHello (expectedNetworkId : UInt32) (frame : P2PFrame) : Result Unit := do
  let remoteHello ← parseHelloFrame frame
  if !validateHello remoteHello expectedNetworkId then fail "P2P hello validation failed" else pure ()

/-- What is sent, and how the call ends. -/
def performHelloHandshake (localHello : P2PHello) (expectedNetworkId : UInt32) (turns : List SocketTurn) (now : Nat)
    (socket : TimedSocket) : Bytes × Deadlined Unit :=
  let deadline := now + handshakeTimeout
  match (makeHelloFrame localHello).bind P2PFrame.serializeBinary with
  | .error e => ([], .ended (.failed now e))
  | .ok sent =>
    (sent, match receiveFrameWithDeadline deadline turns now socket with
      | .ended e => .ended e
      | .waiting now => .waiting now
      | .ok frame now socket turns => .ofResult (checkHello expectedNetworkId frame) now socket turns)

end Caesar
