import Caesar.Lib.Delivery
import Caesar.Relay

/-!
# Frames on a connection

A frame is its payload's size, its type and its payload. The reader of a peer
collects the size, then the rest, and passes the frame on; a time-out at any
point makes it start again with what arrives next.
-/

namespace Caesar

open Codec

/-! ## The bytes of a frame -/

def P2PMessageType.toByte : P2PMessageType → UInt8
  | .hello => 1
  | .ping => 2
  | .pong => 3
  | .getHeaders => 4
  | .headers => 5
  | .getBlocks => 6
  | .blocks => 7
  | .getMempool => 8
  | .transaction => 9
  | .getTransaction => 10
  | .reject => 11
  | .getSyncBlocks => 12
  | .syncBlocks => 13
  | .getPeers => 14
  | .peers => 15

def p2pMessageTypes : List P2PMessageType :=
  [.hello, .ping, .pong, .getHeaders, .headers, .getBlocks, .blocks, .getMempool, .transaction, .getTransaction, .reject,
    .getSyncBlocks, .syncBlocks, .getPeers, .peers]

/-- `none` is a byte outside the range of the types. -/
def P2PMessageType.ofByte (byte : UInt8) : Option P2PMessageType := p2pMessageTypes.find? fun type => type.toByte = byte

def P2PFrame.serializeBinary (frame : P2PFrame) : Result Bytes :=
  if frame.payload.length > czrP2PMaxPayload then fail "P2P payload too large"
  else .ok (writeSize frame.payload.length ++ frame.type.toByte :: frame.payload)

def P2PFrame.deserializeBinary (data : Bytes) : Result P2PFrame := do
  let (payloadSize, rest) ← readU32 data
  if payloadSize.toNat > czrP2PMaxPayload then fail "P2P payload too large"
  else match rest with
    | [] => fail "truncated binary data"
    | rawType :: payload =>
      match P2PMessageType.ofByte rawType with
      | none => fail "Invalid P2P message type"
      | some type => if payload.length ≠ payloadSize.toNat then fail "Invalid P2P frame length" else pure ⟨type, payload⟩

/-! ## Receiving -/

abbrev Socket := Delivery.Source Error UInt8

def receiveAll (size : Nat) (socket : Socket) : Delivery.Collected Error UInt8 :=
  Delivery.collect (.runtimeError "TCP receive failed: peer closed connection") size socket.events socket.rest []

/-- How `receive_frame` ends. A time-out is a `P2PTimeout`; `waiting` is a call that has not ended yet. -/
inductive Receipt where
  | frame (frame : P2PFrame) (socket : Socket)
  | timeout (lost : Bytes) (socket : Socket)
  | failed (e : Error)
  | waiting
  deriving DecidableEq

def receiveFrame (socket : Socket) : Receipt :=
  match receiveAll 4 socket with
  | .timeout lost socket => .timeout lost socket
  | .failed e => .failed e
  | .waiting => .waiting
  | .all lengthBytes socket =>
    let payloadSize := leNat lengthBytes
    if payloadSize > czrP2PMaxPayload then .failed (.runtimeError "P2P payload too large")
    else match receiveAll (5 + payloadSize - 4) socket with
      | .timeout lost socket => .timeout (lengthBytes ++ lost) socket
      | .failed e => .failed e
      | .waiting => .waiting
      | .all body socket =>
        match P2PFrame.deserializeBinary (lengthBytes ++ body) with
        | .error e => .failed e
        | .ok frame => .frame frame socket

def Receipt.frame? : Receipt → Option P2PFrame
  | .frame received _ => some received
  | .timeout _ _ => none
  | .failed _ => none
  | .waiting => none

/-- `error.find("TCP receive timeout") != std::string::npos` -/
def Error.mentionsTimeout (e : Error) : Bool := (e.what.splitOn "TCP receive timeout").length > 1

/-- Rounds of the reader loop of `on_peer_added`: what each of them received, and what the handlers made of the state. -/
def readerLoop {σ : Type} (handleFrame : P2PFrame → σ → Result Unit × σ) : Nat → Socket → σ → List Receipt × σ
  | 0, _, state => ([], state)
  | rounds + 1, socket, state =>
    match receiveFrame socket with
    | .failed e => ([.failed e], state)
    | .waiting => ([.waiting], state)
    | .timeout lost socket =>
      let later := readerLoop handleFrame rounds socket state
      (.timeout lost socket :: later.1, later.2)
    | .frame frame socket =>
      let handled := handleFrame frame state
      let later := readerLoop handleFrame rounds socket handled.2
      match handled.1 with
      | .ok () => (.frame frame socket :: later.1, later.2)
      | .error e => if e.mentionsTimeout then (.frame frame socket :: later.1, later.2) else ([.frame frame socket], handled.2)

def passedFrames (receipts : List Receipt) : List P2PFrame := receipts.filterMap Receipt.frame?

end Caesar
