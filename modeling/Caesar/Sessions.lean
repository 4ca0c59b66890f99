import Mathlib.Logic.Relation
import Caesar.Relay

/-!
# Fork sessions between the locks

The handlers of headers and of sync blocks release their locks several times, so
other readers and the node itself go on in between. A reader is at one of the
points between two locks, and a step is what one of them does under a lock or
what changes the chain from elsewhere.
-/

namespace Caesar

open Codec

namespace Node

variable {K : Crypto}

def openSession (id : UInt64) (sessionId : P2PSyncSessionId) (headers : List BlockHeader) (node : Node K) : Node K :=
  node.setPending id (some ⟨sessionId, headers, headers.map fun _ => none⟩)

/-- `clear_pending_session`, and what undoes a session whose request failed. -/
def clearSession (id : UInt64) (sessionId : P2PSyncSessionId) (node : Node K) : Node K :=
  match node.pendingChainSyncs id with
  | none => node
  | some pending => if pending.sessionId = sessionId then node.setPending id none else node

/-- `handle_sync_blocks` up to the end of its first lock: what it copied, if the session is complete. -/
def receiveSyncBlocks (id : UInt64) (payload : Bytes) (node : Node K) :
    Result (Option (P2PSyncSessionId × List BlockHeader × List Block)) × Node K :=
  match SyncBlocksMessage.deserializeBinary payload with
  | .error e => (.error e, node)
  | .ok message =>
    match node.pendingChainSyncs id with
    | none => (.ok none, node)
    | some pending =>
      if pending.sessionId ≠ message.sessionId then (.ok none, node)
      else if message.blocks.isEmpty then (.ok none, node.setPending id none)
      else
        let received := receiveBlocks K pending.headers message.blocks pending.blocks
        let node := node.setPending id (some { pending with blocks := received.2 })
        match received.1 with
        | .error e => (.error e, node)
        | .ok () =>
          if received.2.all Option.isSome then
            (.ok (some (message.sessionId, pending.headers, received.2.filterMap fun b => b)), node)
          else (.ok none, node)

end Node

/-- Where the reader of a peer is. -/
inductive ReaderState where
  | idle
  -- the headers are a fork of the chain that was just read
  | checked (headers : List BlockHeader)
  | requesting (sessionId : P2PSyncSessionId)
  | complete (sessionId : P2PSyncSessionId) (headers : List BlockHeader) (blocks : List Block)
  -- about to invoke the callback
  | offering (sessionId : P2PSyncSessionId) (candidate : List Block)
  | closing (sessionId : P2PSyncSessionId)

structure SyncState (K : Crypto) where
  node : Node K
  readers : UInt64 → ReaderState

def SyncState.goTo {K : Crypto} (s : SyncState K) (id : UInt64) (node : Node K) (reader : ReaderState) : SyncState K :=
  ⟨node, Function.update s.readers id reader⟩

inductive SyncEvent where
  | internal
  | headers (id : UInt64) (headers : List BlockHeader)
  | syncBlocks (id : UInt64) (payload : Bytes)
  | replace (id : UInt64) (candidate : List Block)

/-- One step. A message of headers that throws, is empty or extends the tip is not one: it touches no session. -/
inductive SyncStep {K : Crypto} (s : SyncState K) : SyncEvent → SyncState K → Prop
  -- anything that the node does outside the two handlers
  | change {after : Node K} : after.pendingChainSyncs = s.node.pendingChainSyncs → SyncStep s .internal { s with node := after }
  | headers {id payload headers} : s.readers id = .idle → s.node.receiveHeaders payload = .ok (some (headers, false)) →
    SyncStep s (.headers id headers) (s.goTo id s.node (.checked headers))
  | found {id headers} : s.readers id = .checked headers → (s.node.pendingChainSyncs id).isSome →
    SyncStep s .internal (s.goTo id s.node .idle)
  | opened {id headers} (sessionId : P2PSyncSessionId) : s.readers id = .checked headers → s.node.pendingChainSyncs id = none →
    SyncStep s .internal (s.goTo id (s.node.openSession id sessionId headers) (.requesting sessionId))
  | requested {id sessionId} : s.readers id = .requesting sessionId → SyncStep s .internal (s.goTo id s.node .idle)
  | unrequested {id sessionId} : s.readers id = .requesting sessionId →
    SyncStep s .internal (s.goTo id (s.node.clearSession id sessionId) .idle)
  | received {id payload result after} : s.readers id = .idle → s.node.receiveSyncBlocks id payload = (result, after) →
    (∀ copied, result ≠ .ok (some copied)) → SyncStep s (.syncBlocks id payload) (s.goTo id after .idle)
  | completed {id payload sessionId headers blocks after} : s.readers id = .idle →
    s.node.receiveSyncBlocks id payload = (.ok (some (sessionId, headers, blocks)), after) →
    SyncStep s (.syncBlocks id payload) (s.goTo id after (.complete sessionId headers blocks))
  | assembled {id sessionId headers blocks candidate} : s.readers id = .complete sessionId headers blocks →
    s.node.assembleSession headers blocks = .ok candidate →
    SyncStep s .internal (s.goTo id s.node (.offering sessionId candidate))
  | unassembled {id sessionId headers blocks e} : s.readers id = .complete sessionId headers blocks →
    s.node.assembleSession headers blocks = .error e → SyncStep s .internal (s.goTo id s.node (.closing sessionId))
  | replace {id sessionId candidate} (walk : Walk K) : s.readers id = .offering sessionId candidate →
    SyncStep s (.replace id candidate) (s.goTo id (s.node.replaceChain walk candidate).2 (.closing sessionId))
  | closed {id sessionId} : s.readers id = .closing sessionId →
    SyncStep s .internal (s.goTo id (s.node.clearSession id sessionId) .idle)

/-- Any number of steps, of any readers in any order. -/
def SyncRun {K : Crypto} : SyncState K → SyncState K → Prop :=
  Relation.ReflTransGen fun s s' => ∃ event, SyncStep s event s'

/-- The relay as it starts. -/
structure SyncState.Fresh {K : Crypto} (s : SyncState K) : Prop where
  pending : ∀ id, s.node.pendingChainSyncs id = none
  readers : ∀ id, s.readers id = .idle

end Caesar
