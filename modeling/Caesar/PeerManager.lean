import Caesar.Lib.Interleave
import Caesar.Lib.Ipv4
import Caesar.Messages
import Caesar.Peers

/-!
# The peer table

Connections by id, with their endpoints and scores, the addresses that are banned
for a time, and the endpoints that other peers told about. The table is reached
from several threads: each section under its lock is one step, and opening a
connection or penalizing a peer takes several.
-/

namespace Caesar

open Codec

/-- An entry of the table; a peer is connected as long as it has one. -/
structure P2PPeerInfo where
  id : UInt64
  address : Bytes
  port : UInt16
  score : Int
  deriving DecidableEq

def P2PPeerInfo.endpoint (info : P2PPeerInfo) : P2PPeerEndpoint := ⟨info.address, info.port⟩

def peerScoreInitial : Int := 100

def peerScoreMax : Int := 200

def peerScoreMin : Int := 0

def banThreshold : Int := 0

/-- In nanoseconds, as the clock counts. -/
def defaultBanDuration : Nat := 24 * 60 * 60 * 1000000000

def maxKnownPeers : Nat := 256

/-- The value that an `int` has after an operation which overflows. -/
def wrapInt (n : Int) : Int := n.bmod (2 ^ 32)

structure P2PPeerManager where
  -- `peers_`, the entries with their keys
  table : List (UInt64 × P2PPeerInfo)
  knownPeers : List P2PPeerEndpoint
  -- the end of the ban
  bannedAddresses : Bytes → Option Nat
  nextId : UInt64
  keys_nodup : (table.map Prod.fst).Nodup
  keyed : ∀ entry ∈ table, entry.1 = entry.2.id

def P2PPeerManager.peers (m : P2PPeerManager) : List P2PPeerInfo := m.table.map Prod.snd

structure PeerWalk where
  order : List P2PPeerInfo → List P2PPeerInfo
  perm : ∀ peers, (order peers).Perm peers

namespace P2PPeerManager

def empty : P2PPeerManager := ⟨[], [], fun _ => none, 1, List.nodup_nil, nofun⟩

def find (id : UInt64) (m : P2PPeerManager) : Option P2PPeerInfo :=
  (m.table.find? fun entry => entry.1 = id).map Prod.snd

/-! ## Bans -/

def ban (now : Nat) (address : Bytes) (m : P2PPeerManager) : P2PPeerManager :=
  { m with bannedAddresses := Function.update m.bannedAddresses address (some (now + defaultBanDuration)) }

def unban (address : Bytes) (m : P2PPeerManager) : P2PPeerManager :=
  { m with bannedAddresses := Function.update m.bannedAddresses address none }

/-- A ban that is over is dropped on the way. -/
def isBannedLocked (now : Nat) (address : Bytes) (m : P2PPeerManager) : Bool × P2PPeerManager :=
  match m.bannedAddresses address with
  | none => (false, m)
  | some banEnd => if banEnd ≤ now then (false, m.unban address) else (true, m)

/-! ## Entries -/

/-- `emplace` leaves an entry that is there. -/
def emplace (info : P2PPeerInfo) (m : P2PPeerManager) : P2PPeerManager :=
  if h : info.id ∈ m.table.map Prod.fst then m
  else { m with
    table := (info.id, info) :: m.table
    keys_nodup := List.nodup_cons.mpr ⟨h, m.keys_nodup⟩
    keyed := List.forall_mem_cons.mpr ⟨rfl, m.keyed⟩ }

/-- `add_peer` in its section. -/
def addPeer (now : Nat) (valid : Bool) (address : Bytes) (port : UInt16) (m : P2PPeerManager) :
    Result UInt64 × P2PPeerManager :=
  if !valid then (fail "Cannot add invalid P2P peer", m)
  else if m.peers.length ≥ maxPeers then (fail "P2P peer limit reached", m)
  else match m.isBannedLocked now address with
    | (true, m) => (fail "Cannot add banned P2P peer", m)
    | (false, m) =>
      if m.peers.any fun existing => existing.address = address && existing.port = port then
        (fail "P2P peer endpoint is already connected", m)
      else (.ok m.nextId,
        { m with nextId := m.nextId + 1 }.emplace ⟨m.nextId, address, port, peerScoreInitial⟩)

/-- The whole call, which ends with the callback outside of the section. -/
def addPeerNotify (callback : UInt64 → Result Unit) (now : Nat) (valid : Bool) (address : Bytes) (port : UInt16)
    (m : P2PPeerManager) : Result UInt64 × P2PPeerManager :=
  let (result, m) := m.addPeer now valid address port
  (do let id ← result; callback id; pure id, m)

def removePeer (id : UInt64) (m : P2PPeerManager) : P2PPeerManager :=
  { m with
    table := m.table.filter fun entry => entry.1 ≠ id
    keys_nodup := m.keys_nodup.sublist (List.filter_sublist.map _)
    keyed := fun entry h => m.keyed entry (List.mem_filter.mp h).1 }

def clear (m : P2PPeerManager) : P2PPeerManager := { m with table := [], keys_nodup := List.nodup_nil, keyed := nofun }

def rescore (id : UInt64) (score : Int) (entry : UInt64 × P2PPeerInfo) : UInt64 × P2PPeerInfo :=
  if entry.1 = id then (entry.1, { entry.2 with score := score }) else entry

/-- Only the score differs. -/
theorem rescore_face (id : UInt64) (score : Int) (entry : UInt64 × P2PPeerInfo) :
    (rescore id score entry).1 = entry.1 ∧ (rescore id score entry).2.id = entry.2.id ∧
      (rescore id score entry).2.endpoint = entry.2.endpoint := by
  unfold rescore
  split
  · exact ⟨rfl, rfl, rfl⟩
  · exact ⟨rfl, rfl, rfl⟩

def setScore (id : UInt64) (score : Int) (m : P2PPeerManager) : P2PPeerManager where
  table := m.table.map (rescore id score)
  knownPeers := m.knownPeers
  bannedAddresses := m.bannedAddresses
  nextId := m.nextId
  keys_nodup := by
    have hkeys : Prod.fst ∘ rescore id score = Prod.fst := funext fun entry => (rescore_face id score entry).1
    rw [List.map_map, hkeys]
    exact m.keys_nodup
  keyed := by
    intro entry h
    obtain ⟨old, hold, rfl⟩ := List.mem_map.mp h
    rw [(rescore_face id score old).1, (rescore_face id score old).2.1]
    exact m.keyed old hold

/-! ## Scores -/

/-- The first section of `penalize`, and `address_to_ban`. -/
def penalizeScore (id : UInt64) (amount : Int) (m : P2PPeerManager) : Bytes × P2PPeerManager :=
  match m.find id with
  | none => ([], m)
  | some info =>
    let score := wrapInt (info.score - amount)
    if score ≤ banThreshold then (info.address, m.setScore id peerScoreMin) else ([], m.setScore id score)

def reward (id : UInt64) (amount : Int) (m : P2PPeerManager) : P2PPeerManager :=
  match m.find id with
  | none => m
  | some info =>
    let score := wrapInt (info.score + amount)
    m.setScore id (if score > peerScoreMax then peerScoreMax else score)

/-! ## Endpoints -/

def peerEndpointsSnapshot (infos : List P2PPeerInfo) : List P2PPeerEndpoint :=
  (infos.filter fun info => !(info.address.isEmpty || info.port = 0)).map P2PPeerInfo.endpoint

def rememberPeerEndpoint (endpoint : P2PPeerEndpoint) (m : P2PPeerManager) : Result Unit × P2PPeerManager :=
  match endpoint.validate Ipv4.inetPton with
  | .error e => (.error e, m)
  | .ok () =>
    if m.knownPeers.any fun known => known.address = endpoint.address && known.port = endpoint.port then (.ok (), m)
    else if m.knownPeers.length ≥ maxKnownPeers then (.ok (), m)
    else (.ok (), { m with knownPeers := m.knownPeers ++ [endpoint] })

def rememberPeerEndpoints : List P2PPeerEndpoint → P2PPeerManager → Result Unit × P2PPeerManager
  | [], m => (.ok (), m)
  | endpoint :: rest, m =>
    match m.rememberPeerEndpoint endpoint with
    | (.error e, m) => (.error e, m)
    | (.ok (), m) => rememberPeerEndpoints rest m

def forgetPeerEndpoint (address : Bytes) (port : UInt16) (m : P2PPeerManager) : P2PPeerManager :=
  { m with knownPeers := m.knownPeers.filter fun known => !(known.address = address && known.port = port) }

/-! ## Discovery messages -/

def handlePeers (payload : Bytes) (m : P2PPeerManager) : Result Unit × P2PPeerManager :=
  match parsePeersPayload Ipv4.inetPton payload with
  | .error e => (.error e, m)
  | .ok peers => m.rememberPeerEndpoints peers

def advertised (walk : PeerWalk) (requester : P2PPeerInfo) (m : P2PPeerManager) : List P2PPeerEndpoint :=
  ((peerEndpointsSnapshot (walk.order m.peers)).filter fun peer =>
    !(peer.address = requester.address && peer.port = requester.port)).take czrP2PMaxDiscoveryPeers

/-- The frame that is sent; there is none to a peer that is gone. -/
def handleGetPeers (walk : PeerWalk) (id : UInt64) (payload : Bytes) (m : P2PPeerManager) : Result (Option P2PFrame) :=
  if !payload.isEmpty then fail "GetPeers payload must be empty"
  else match m.find id with
    | none => .ok none
    | some requester => do
      let frame ← makePeersFrame Ipv4.inetPton (m.advertised walk requester)
      let sent ← sendFrame frame
      pure (some sent)

end P2PPeerManager

/-! ## Opening connections -/

/-- The table with what its server knows, and the time. -/
structure P2PServer where
  manager : P2PPeerManager
  running : Bool
  listenAddress : Bytes
  listenPort : UInt16
  now : Nat

namespace P2PServer

/-- What `connect_to_peer` checks before it opens a socket. -/
def outboundGate (address : Bytes) (port : UInt16) (s : P2PServer) : Result Unit × P2PServer :=
  if !s.running then (fail "P2P server is not running", s)
  else if address.isEmpty then (fail "P2P peer address is empty", s)
  else if port = 0 then (fail "P2P peer port is invalid", s)
  else if s.manager.peers.length ≥ maxPeers then (fail "P2P peer limit reached", s)
  else match Ipv4.inetPton (cString address) with
    | none => (fail "Invalid IPv4 address", s)
    | some hostAddress =>
      if port = s.listenPort ∧ ((hostAddress >>> 24) &&& 0xff = 127 ∨
          s.listenAddress ≠ Text.ascii "0.0.0.0" ∧ address = s.listenAddress) then
        (fail "P2P outbound self-connection rejected", s)
      else match s.manager.isBannedLocked s.now address with
        | (true, m) => (fail "P2P outbound peer is banned", { s with manager := m })
        | (false, m) =>
          if (P2PPeerManager.peerEndpointsSnapshot m.peers).any fun endpoint =>
              endpoint.address = address && endpoint.port = port then
            (fail "P2P peer is already connected", { s with manager := m })
          else (.ok (), { s with manager := m })

end P2PServer

/-- What is left to do of a call that takes several sections. -/
inductive PeerTask where
  | connecting (address : Bytes) (port : UInt16)
  | banning (id : UInt64) (address : Bytes)
  | removing (id : UInt64)
  deriving DecidableEq

inductive PeerCall where
  -- a connection that the attempt limit lets through
  | accept (host : UInt32) (port : UInt16)
  | connect (address : Bytes) (port : UInt16)
  | addPeer (valid : Bool) (address : Bytes) (port : UInt16)
  | removePeer (id : UInt64)
  | clear
  | penalize (id : UInt64) (amount : Nat)
  | reward (id : UInt64) (amount : Nat)
  | ban (address : Bytes)
  | unban (address : Bytes)
  | remember (endpoint : P2PPeerEndpoint)
  | forget (address : Bytes) (port : UInt16)
  | peers (payload : Bytes)
  | tick (elapsed : Nat)

namespace P2PServer

def withManager (s : P2PServer) (m : P2PPeerManager) : P2PServer := { s with manager := m }

/-- The first section of a call, and the rest of it. -/
def begin (call : PeerCall) (s : P2PServer) : P2PServer × Option PeerTask :=
  match call with
  | .accept host port =>
    if !s.running || s.manager.peers.length ≥ maxPeers then (s, none) else (s, some (.connecting (Ipv4.dotted host) port))
  | .connect address port =>
    match s.outboundGate address port with
    | (.error _, s) => (s, none)
    | (.ok (), s) => (s, some (.connecting address port))
  | .addPeer valid address port => (s.withManager (s.manager.addPeer s.now valid address port).2, none)
  | .removePeer id => (s.withManager (s.manager.removePeer id), none)
  | .clear => (s.withManager s.manager.clear, none)
  | .penalize id amount =>
    let (addressToBan, m) := s.manager.penalizeScore id amount
    (s.withManager m, if addressToBan.isEmpty then none else some (.banning id addressToBan))
  | .reward id amount => (s.withManager (s.manager.reward id amount), none)
  | .ban address => (s.withManager (s.manager.ban s.now address), none)
  | .unban address => (s.withManager (s.manager.unban address), none)
  | .remember endpoint => (s.withManager (s.manager.rememberPeerEndpoint endpoint).2, none)
  | .forget address port => (s.withManager (s.manager.forgetPeerEndpoint address port), none)
  | .peers payload => (s.withManager (s.manager.handlePeers payload).2, none)
  | .tick elapsed => ({ s with now := s.now + elapsed }, none)

/-- The next section. A connection that is not `greeted` fails in its handshake. -/
def advance (greeted : Bool) (s : P2PServer) : PeerTask → P2PServer × Option PeerTask
  | .connecting address port =>
    if !greeted || !s.running then (s, none)
    else (s.withManager (s.manager.addPeer s.now true address port).2, none)
  | .banning id address => (s.withManager (s.manager.ban s.now address), some (.removing id))
  | .removing id => (s.withManager (s.manager.removePeer id), none)

end P2PServer

def peerSystem : Interleave.System P2PServer PeerTask PeerCall Bool where
  spawn call s := s.begin call
  advance greeted s task := s.advance greeted task

end Caesar
