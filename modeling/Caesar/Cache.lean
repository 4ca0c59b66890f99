import Caesar.Relay

/-!
# The chain as the node caches it

`chain()`, `height()` and `request_sync_from_peer` read a copy of the chain and
load it again when it is not valid. A call of the node that stores a chain makes
the copy invalid before it releases the lock. The relay's `handle_blocks`
releases the lock first and calls back later.
-/

namespace Caesar

open Codec

/-! ## What a call stores -/

namespace Node

variable {K : Crypto}

/-- `replace_chain` up to the chain it stores. -/
def replacement (candidate : List Block) (node : Node K) : Result (Option (List Block × BlockchainStorage)) :=
  if !node.running then fail "cannot replace chain while node is stopped"
  else do
    let current ← node.storage.load K
    ifSome (prepareChainReplacement K current candidate) fun plan => do
      let storage ← BlockchainStorage.replace K plan.chain
      pure (some (plan.chain, storage))

/-- `handle_blocks` up to where it releases the lock: what it stored, when it accepted a block. -/
def relayed (payload : Bytes) (node : Node K) : Result (Option BlockchainStorage) := do
  let incoming ← readAll readRelayedBlocks "trailing bytes in relayed blocks payload" payload
  if node.storage.isNone then fail "no local chain"
  else do
    let chain ← node.storage.load K
    if chain.isEmpty then fail "cannot process blocks on empty chain"
    else do
      let utxos ← rebuildUtxoSet K chain
      match chainIssuance chain 0 with
      | none => fail "stored chain has invalid coinbase issuance"
      | some totalIssued => do
        let st ← incoming.foldlM (relayBlock K) ⟨chain, utxos, totalIssued⟩
        if st.chain.length = chain.length then pure none
        else do
          let storage ← BlockchainStorage.replace K st.chain
          pure (some storage)

def stored {α : Type} : Result (Option α) → Bool
  | .ok (some _) => true
  | _ => false

def stores (node : Node K) : Call K → Bool
  | .acceptTransaction _ => false
  | .commitMined candidate => (node.commitMined candidate).1.isOk
  | .submitPoolSolution candidate => (node.submitPoolSolution candidate).1.toOption = some true
  | .replaceChain _ candidate => stored (node.replacement candidate)
  | .handleBlocks payload => stored (node.relayed payload)

end Node

/-! ## The cache -/

def tipHeight (chain : List Block) : UInt64 :=
  match chain.getLast? with
  | none => 0
  | some block => block.header.height

/-- The node with its copy of the chain. `callbacks` counts the calls of `handle_blocks` that have stored blocks and have
not called back yet; `snapshotChain` is the chain that the height snapshot was taken from. -/
structure CachedNode (K : Crypto) where
  node : Node K
  chainCache : List Block
  chainCacheValid : Bool
  heightSnapshot : UInt64
  snapshotChain : List Block
  callbacks : Nat

namespace CachedNode

variable {K : Crypto}

def refresh (c : CachedNode K) : Result (CachedNode K) :=
  if !c.chainCacheValid then do
    let chain ← c.node.storage.load K
    pure { c with chainCache := chain, chainCacheValid := true }
  else pure c

def chain (c : CachedNode K) : Result (List Block) × CachedNode K :=
  match c.refresh with
  | .error e => (.error e, c)
  | .ok fresh => (.ok fresh.chainCache, fresh)

/-- `height`: without the lock it returns the snapshot. The chain that the result stands for comes with it. -/
def height (owned : Bool) (c : CachedNode K) : Result (UInt64 × List Block) × CachedNode K :=
  if !owned then (.ok (c.heightSnapshot, c.snapshotChain), c)
  else match c.refresh with
    | .error e => (.error e, c)
    | .ok fresh =>
      let current := tipHeight fresh.chainCache
      (.ok (current, fresh.chainCache), { fresh with heightSnapshot := current, snapshotChain := fresh.chainCache })

/-- The loop that halves the index until the locator has ten hashes. -/
def extendLocator (chain : List Block) : Nat → Nat → List Hash256 → List Hash256
  | 0, _, locator => locator
  | room + 1, i, locator =>
    if i > 1 then
      match chain[i / 2]? with
      | some block => extendLocator chain room (i / 2) (locator ++ [block.hash K])
      | none => locator
    else locator

def requestSyncFromPeer (c : CachedNode K) : Result (List Hash256) × CachedNode K :=
  match c.refresh with
  | .error e => (.error e, c)
  | .ok fresh =>
    (.ok (match fresh.chainCache.getLast? with
      | none => [Hash256.zero]
      | some tip => extendLocator (K := K) fresh.chainCache 9 fresh.chainCache.length [tip.hash K]), fresh)

/-- A call of the node. The relay leaves the copy valid and calls back later. -/
def call (c : CachedNode K) (call : Call K) : CachedNode K :=
  let after := { c with node := c.node.call call }
  if c.node.stores call then
    match call with
    | .handleBlocks _ => { after with callbacks := c.callbacks + 1 }
    | _ => { after with chainCacheValid := false }
  else after

def invalidate (c : CachedNode K) : CachedNode K := { c with chainCacheValid := false, callbacks := c.callbacks - 1 }

/-! ## Runs -/

/-- Each event is one section under `chain_mutex_`. -/
inductive Event (K : Crypto) where
  | chain
  | height (owned : Bool)
  | requestSyncFromPeer
  | call (call : Call K)
  | invalidate

def step (c : CachedNode K) : Event K → CachedNode K
  | .chain => c.chain.2
  | .height owned => (c.height owned).2
  | .requestSyncFromPeer => c.requestSyncFromPeer.2
  | .call call => c.call call
  | .invalidate => c.invalidate

def run (events : List (Event K)) (c : CachedNode K) : CachedNode K := events.foldl step c

/-- The node once it runs: nothing is cached, and the snapshot is the height of the stored chain. -/
def started (node : Node K) (chain : List Block) : CachedNode K := ⟨node, [], false, tipHeight chain, chain, 0⟩

end CachedNode

end Caesar
