import Caesar.Wire

/-!
# Hello, ping and the addresses of peers

The payloads of the messages that no block or transaction is part of. The address
of a peer is a text that `inet_pton` reads as an IPv4 address.
-/

namespace Caesar

open Codec

/-! ## Hello -/

def czrP2PProtocolVersion : UInt32 := 1

def czrP2PMaxUserAgent : Nat := 128

structure P2PHello where
  protocolVersion : UInt32 := czrP2PProtocolVersion
  networkId : UInt32 := 1
  height : UInt64 := 0
  timestamp : UInt64 := 0
  userAgent : Bytes := "Caesar-CZR".toUTF8.toList
  deriving DecidableEq

def P2PHello.serializeBinary (hello : P2PHello) : Result Bytes :=
  if hello.userAgent.length > czrP2PMaxUserAgent then fail "P2P user agent too large"
  else do
    let userAgent ← writeString hello.userAgent
    pure (writeU32 hello.protocolVersion ++ (writeU32 hello.networkId ++ (writeU64 hello.height ++
      (writeU64 hello.timestamp ++ userAgent))))

def readHello : Reader Error P2PHello := readU32.andThen fun protocolVersion => readU32.andThen fun networkId =>
  readU64.andThen fun height => readU64.andThen fun timestamp => readString.andThen fun userAgent s =>
    if userAgent.length > czrP2PMaxUserAgent then fail "P2P user agent too large"
    else .ok (⟨protocolVersion, networkId, height, timestamp, userAgent⟩, s)

def P2PHello.deserializeBinary (data : Bytes) : Result P2PHello := readAll readHello "Trailing P2P hello data" data

/-! ## Ping and pong -/

structure P2PPing where
  nonce : UInt64
  deriving DecidableEq

structure P2PPong where
  nonce : UInt64
  deriving DecidableEq

/-- A message that is one nonce. -/
def readNonce {α : Type} (make : UInt64 → α) : Reader Error α := readU64.andThen fun nonce s => .ok (make nonce, s)

def P2PPing.serializeBinary (ping : P2PPing) : Bytes := writeU64 ping.nonce

def P2PPing.deserializeBinary (data : Bytes) : Result P2PPing :=
  readAll (readNonce P2PPing.mk) "Trailing P2P ping data" data

def P2PPong.serializeBinary (pong : P2PPong) : Bytes := writeU64 pong.nonce

def P2PPong.deserializeBinary (data : Bytes) : Result P2PPong :=
  readAll (readNonce P2PPong.mk) "Trailing P2P pong data" data

/-! ## Discovery -/

def czrP2PMaxDiscoveryPeers : Nat := 32

def czrP2PMaxPeerAddress : Nat := 255

structure P2PPeerEndpoint where
  address : Bytes
  port : UInt16
  deriving DecidableEq

/-- `address.c_str()`: a C string ends at its first zero. -/
def cString (s : Bytes) : Bytes := s.takeWhile (· ≠ 0)

-- `inetPton` is `inet_pton(AF_INET, ..)` followed by `ntohl`
section
variable (inetPton : Bytes → Option UInt32)

def P2PPeerEndpoint.validate (peer : P2PPeerEndpoint) : Result Unit :=
  if peer.address.isEmpty then fail "empty P2P peer address"
  else if peer.address.length > czrP2PMaxPeerAddress then fail "P2P peer address too long"
  else if peer.port = 0 then fail "invalid P2P peer port"
  else match inetPton (cString peer.address) with
    | none => fail "invalid P2P IPv4 peer address"
    | some host =>
      let firstOctet := (host >>> 24) &&& 0xff
      if firstOctet = 0 then fail "unspecified P2P peer address"
      else if firstOctet = 127 then fail "loopback P2P peer address"
      else if firstOctet ≥ 224 then fail "non-unicast P2P peer address"
      else .ok ()

def writePeer (peer : P2PPeerEndpoint) : Result Bytes := do
  peer.validate inetPton
  let address ← writeString peer.address
  pure (address ++ writeU32 peer.port.toUInt32)

def makePeersFrame (peers : List P2PPeerEndpoint) : Result P2PFrame :=
  if peers.length > czrP2PMaxDiscoveryPeers then fail "too many discovery peers"
  else do
    let written ← peers.mapM (writePeer inetPton)
    pure ⟨.peers, writeSize peers.length ++ written.flatten⟩

def readPeer : Reader Error P2PPeerEndpoint := readString.andThen fun address s =>
  if address.isEmpty then fail "empty discovered peer address"
  else if address.length > czrP2PMaxPeerAddress then fail "discovered peer address too long"
  else readU32.andThen (fun rawPort s =>
    if rawPort = 0 ∨ rawPort > 65535 then fail "invalid discovered peer port"
    else do
      let peer : P2PPeerEndpoint := ⟨address, rawPort.toUInt16⟩
      peer.validate inetPton
      pure (peer, s)) s

def parsePeersPayload (payload : Bytes) : Result (List P2PPeerEndpoint) :=
  readAll ((readCount czrP2PMaxDiscoveryPeers "too many discovery peers").andThen fun count =>
    readMany (readPeer inetPton) count) "trailing discovery payload" payload

end

end Caesar
