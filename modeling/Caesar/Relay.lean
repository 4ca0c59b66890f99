import Caesar.Node

/-!
# The relay: the handlers of the messages from a peer

Six messages by which a node fetches the blocks it lacks, and the small ones. A
handler returns how it ended, the node it leaves and the frames it sent, those
before a throw included. Relaying accepted blocks and transactions to the other
peers swallows every failure here and is left out.
-/

namespace Caesar

open Codec

/-! ## Frames -/

def czrP2PMaxPayload : Nat := 4 * 1024 * 1024

inductive P2PMessageType where
  | hello
  | ping
  | pong
  | getHeaders
  | headers
  | getBlocks
  | blocks
  | getMempool
  | transaction
  | getTransaction
  | reject
  | getSyncBlocks
  | syncBlocks
  | getPeers
  | peers
  deriving DecidableEq, Repr

structure P2PFrame where
  type : P2PMessageType
  payload : Bytes
  deriving DecidableEq, Repr

/-- A frame over the payload limit is refused by its sender. -/
def sendFrame (frame : P2PFrame) : Result P2PFrame :=
  if frame.payload.length > czrP2PMaxPayload then fail "P2P payload too large" else .ok frame

def sendAll : List (Result P2PFrame) → List P2PFrame × Result Unit
  | [] => ([], .ok ())
  | frame :: rest =>
    match frame >>= sendFrame with
    | .error e => ([], .error e)
    | .ok sent => (sent :: (sendAll rest).1, (sendAll rest).2)

/-! ## Encodings -/

def writeSized (data : Bytes) : Bytes := writeSize data.length ++ data

def writeHashes (hashes : List Hash256) : Bytes := writeSize hashes.length ++ hashes.flatMap fun hash => hash.1

def readPositiveCount (limit : Nat) (what : String) : Reader Error Nat := readU32.andThen fun n s =>
  if n.toNat = 0 ∨ n.toNat > limit then fail what else .ok (n.toNat, s)

def readHashes (limit : Nat) (what : String) : Reader Error (List Hash256) :=
  (readPositiveCount limit what).andThen fun count => readMany readHash count

def readPiece {α : Type} (size : Nat) (f : Bytes → Result α) : Reader Error α := (readRaw size).andThen fun data s =>
  match f data with
  | .ok x => .ok (x, s)
  | .error e => .error e

/-- Pieces of at most `max` elements; `fuel` bounds their number. -/
def batches {α : Type} (max : Nat) : Nat → List α → List (List α)
  | 0, _ => []
  | _ + 1, [] => []
  | fuel + 1, xs => xs.take max :: batches max fuel (xs.drop max)

def maxBatch : Nat := 1024

structure GetSyncBlocksMessage where
  sessionId : P2PSyncSessionId
  blockHashes : List Hash256

structure SyncBlocksMessage where
  sessionId : P2PSyncSessionId
  blocks : List Bytes

def writeSyncSessionId (id : P2PSyncSessionId) : Bytes := writeU64 id.high ++ writeU64 id.low

def readSyncSessionId : Reader Error P2PSyncSessionId := readU64.andThen fun high => readU64.andThen fun low s =>
  .ok (⟨high, low⟩, s)

def GetSyncBlocksMessage.serializeBinary (message : GetSyncBlocksMessage) : Result Bytes :=
  if message.blockHashes.isEmpty then fail "empty sync block request"
  else if message.blockHashes.length > maxBatch then fail "too many sync block hashes"
  else .ok (writeSyncSessionId message.sessionId ++ writeHashes message.blockHashes)

def readGetSyncBlocks : Reader Error GetSyncBlocksMessage := readSyncSessionId.andThen fun sessionId =>
  (readHashes maxBatch "invalid sync block request count").andThen fun hashes s => .ok (⟨sessionId, hashes⟩, s)

def GetSyncBlocksMessage.deserializeBinary (data : Bytes) : Result GetSyncBlocksMessage :=
  readAll readGetSyncBlocks "trailing sync block request data" data

def writeSyncBlock (block : Bytes) : Result Bytes :=
  if block.isEmpty then fail "empty serialized sync block"
  else if block.length > czrP2PMaxPayload then fail "sync block too large"
  else .ok (writeSized block)

def SyncBlocksMessage.serializeBinary (message : SyncBlocksMessage) : Result Bytes :=
  if message.blocks.length > maxBatch then fail "too many sync blocks"
  else do
    let blocks ← message.blocks.mapM writeSyncBlock
    pure (writeSyncSessionId message.sessionId ++ (writeSize message.blocks.length ++ blocks.flatten))

def readSyncBlock : Reader Error Bytes :=
  (readPositiveCount czrP2PMaxPayload "sync block too large").andThen fun size => readRaw size

def readSyncBlocks : Reader Error SyncBlocksMessage := readSyncSessionId.andThen fun sessionId =>
  (readCount maxBatch "invalid sync block response count").andThen fun count =>
    (readMany readSyncBlock count).andThen fun blocks s => .ok (⟨sessionId, blocks⟩, s)

def SyncBlocksMessage.deserializeBinary (data : Bytes) : Result SyncBlocksMessage :=
  readAll readSyncBlocks "trailing sync block response data" data

/-- `encoded.empty() || encoded.size() > CZR_P2P_MAX_PAYLOAD` -/
def encodeBlock (what : String) (block : Block) : Result Bytes := do
  let encoded ← block.serializeFullBinary
  if encoded.isEmpty || encoded.length > czrP2PMaxPayload then fail what else pure encoded

/-- How a handler ended, the node it leaves and what it sent. -/
structure Outcome (K : Crypto) where
  result : Result Unit
  node : Node K
  sent : List P2PFrame

def Outcome.silent {K : Crypto} (r : Result Unit × Node K) : Outcome K := ⟨r.1, r.2, []⟩

namespace Node

variable {K : Crypto}

def reply (node : Node K) (frames : Result (List (Result P2PFrame))) : Outcome K :=
  match frames with
  | .error e => ⟨.error e, node, []⟩
  | .ok frames => ⟨(sendAll frames).2, node, (sendAll frames).1⟩

/-- The first block with a hash, as the map from hashes to positions keeps it. -/
def chainIndex (K : Crypto) (chain : List Block) (hash : Hash256) : Option Nat :=
  chain.findIdx? fun block => block.hash K = hash

/-! ## Asking for headers -/

def maxLocators : Nat := 32

def makeGetHeadersFrame (locatorHashes : List Hash256) : Result P2PFrame :=
  if locatorHashes.isEmpty || locatorHashes.length > maxLocators then fail "invalid header locator count"
  else .ok ⟨.getHeaders, writeHashes locatorHashes⟩

/-- The positions from `index` back, when there is room for `left + 1` more locators. -/
def locatorIndices : Nat → Nat → Nat → List Nat
  | 0, index, _ => [index]
  | left + 1, index, step =>
    if index = 0 then [index]
    -- from the tenth locator on; with 32 of them `step` is far from overflowing
    else index :: locatorIndices left (if index > step then index - step else 0)
      (if maxLocators - (left + 1) ≥ 10 then step * 2 else step)

def headerLocators (K : Crypto) (chain : List Block) : List Hash256 :=
  (locatorIndices (maxLocators - 1) (chain.length - 1) 1).filterMap fun i =>
    chain[i]?.map fun block => block.hash K

def requestHeaders (node : Node K) : Outcome K :=
  node.reply (
    if node.storage.isNone then .ok []
    else do
      let chain ← node.storage.load K
      if chain.isEmpty then pure [] else pure [makeGetHeadersFrame (headerLocators K chain)])

def maxHeaders : Nat := 2000

def headersAfter (K : Crypto) (chain : List Block) (locators : List Hash256) : List BlockHeader :=
  match locators.findSome? (chainIndex K chain) with
  | none => []
  | some i => ((chain.drop (i + 1)).take maxHeaders).map Block.header

def headersFrame (headers : List BlockHeader) : P2PFrame :=
  ⟨.headers, writeSize headers.length ++ headers.flatMap fun header => writeSized header.serializeBinary⟩

def handleGetHeaders (payload : Bytes) (node : Node K) : Outcome K :=
  node.reply (do
    let locators ← readAll (readHashes maxLocators "invalid header locator count")
      "trailing bytes in getheaders payload" payload
    if node.storage.isNone then pure []
    else do
      let chain ← node.storage.load K
      if chain.isEmpty then pure [] else pure [.ok (headersFrame (headersAfter K chain locators))])

/-! ## Asking for blocks -/

def blockHeaderSize : Nat := 128

def readReceivedHeader (K : Crypto) : Reader Error BlockHeader := readU32.andThen fun size =>
  if size.toNat ≠ blockHeaderSize then fun _ => fail "invalid block header size"
  else readPiece size.toNat fun data => do
    let header ← BlockHeader.deserializeBinary data
    if header.version = 0 then fail "invalid received header version"
    else if header.difficulty > 256 then fail "invalid received header difficulty"
    else if !validatePow K { header with nonce := 0 }.serializeBinary header.nonce header.difficulty then
      fail "invalid received header proof of work"
    else pure header

def readReceivedHeaders (K : Crypto) : Reader Error (List BlockHeader) :=
  (readCount maxHeaders "invalid received header count").andThen fun count => readMany (readReceivedHeader K) count

/-- The loop over the headers, for an extension of the tip and for a fork. -/
def checkHeaders (K : Crypto) (heightError linkError : String) : List BlockHeader → UInt64 → Hash256 → Result Unit
  | [], _, _ => .ok ()
  | header :: rest, expectedHeight, previousHash =>
    if header.height ≠ expectedHeight then fail heightError
    else if header.previousHash ≠ previousHash then fail linkError
    else checkHeaders K heightError linkError rest (expectedHeight + 1) (header.hash K)

def checkReceivedHeaders (K : Crypto) (chain : List Block) (tip : Block) (first : BlockHeader)
    (headers : List BlockHeader) : Result Bool :=
  if first.previousHash = tip.hash K then do
    checkHeaders K "received header height is not sequential" "received header does not extend local tip" headers
      (tip.header.height + 1) (tip.hash K)
    pure true
  else if !chain.any fun block => block.hash K = first.previousHash then
    fail "received fork has no known common ancestor"
  else do
    checkHeaders K "received fork header height is not sequential" "received fork header does not link sequentially"
      headers first.height first.previousHash
    pure false

def makeGetBlocksFrame (blockHashes : List Hash256) : Result P2PFrame :=
  if blockHashes.isEmpty || blockHashes.length > maxBatch then fail "invalid block request count"
  else .ok ⟨.getBlocks, writeHashes blockHashes⟩

def requestBlocks (blockHashes : List Hash256) : List (Result P2PFrame) :=
  (batches maxBatch blockHashes.length blockHashes).map makeGetBlocksFrame

def makeGetSyncBlocksFrame (sessionId : P2PSyncSessionId) (blockHashes : List Hash256) : Result P2PFrame := do
  let payload ← GetSyncBlocksMessage.serializeBinary ⟨sessionId, blockHashes⟩
  pure ⟨.getSyncBlocks, payload⟩

def requestSyncBlocks (sessionId : P2PSyncSessionId) (blockHashes : List Hash256) : List (Result P2PFrame) :=
  (batches maxBatch blockHashes.length blockHashes).map (makeGetSyncBlocksFrame sessionId)

def setPending (node : Node K) (id : UInt64) (pending : Option PendingChainSync) : Node K :=
  { node with pendingChainSyncs := Function.update node.pendingChainSyncs id pending }

/-- Open a session for a fork, unless the peer has one, and take it back when the request fails. -/
def startSession (id : UInt64) (sessionId : P2PSyncSessionId) (headers : List BlockHeader) (node : Node K) :
    Outcome K :=
  if (node.pendingChainSyncs id).isSome then ⟨.ok (), node, []⟩
  else
    let frames := sendAll (requestSyncBlocks sessionId (headers.map fun header => header.hash K))
    match frames.2 with
    | .error e => ⟨.error e, node, frames.1⟩
    | .ok () => ⟨.ok (), node.setPending id (some ⟨sessionId, headers, headers.map fun _ => none⟩), frames.1⟩

/-- The checks of `handle_headers`: the headers, and whether they extend the tip. -/
def receiveHeaders (payload : Bytes) (node : Node K) : Result (Option (List BlockHeader × Bool)) := do
  let headers ← readAll (readReceivedHeaders K) "trailing bytes in headers payload" payload
  match headers.head? with
  | none => pure none
  | some first =>
    if node.storage.isNone then fail "cannot process headers without local chain"
    else do
      let chain ← node.storage.load K
      match chain.getLast? with
      | none => fail "cannot process headers on empty chain"
      | some tip => do
        let direct ← checkReceivedHeaders K chain tip first headers
        pure (some (headers, direct))

def handleHeaders (id : UInt64) (sessionId : P2PSyncSessionId) (payload : Bytes) (node : Node K) : Outcome K :=
  match node.receiveHeaders payload with
  | .error e => ⟨.error e, node, []⟩
  | .ok none => ⟨.ok (), node, []⟩
  | .ok (some (headers, true)) => node.reply (.ok (requestBlocks (headers.map fun header => header.hash K)))
  | .ok (some (headers, false)) => node.startSession id sessionId headers

/-! ## Serving blocks -/

def blocksFrame (blocks : List Block) : Result P2PFrame := do
  let encoded ← blocks.mapM (encodeBlock "block too large for getblocks response")
  pure ⟨.blocks, writeSize blocks.length ++ encoded.flatMap writeSized⟩

def handleGetBlocks (payload : Bytes) (node : Node K) : Outcome K :=
  node.reply (do
    let requested ← readAll (readHashes maxBatch "invalid getblocks request count")
      "trailing bytes in getblocks payload" payload
    if node.storage.isNone then pure []
    else do
      let chain ← node.storage.load K
      let blocks := requested.filterMap fun hash => (chainIndex K chain hash).bind fun i => chain[i]?
      if blocks.isEmpty then pure [] else pure [blocksFrame blocks])

def syncBlocksFrame (sessionId : P2PSyncSessionId) (blocks : List Bytes) : Result P2PFrame := do
  let payload ← SyncBlocksMessage.serializeBinary ⟨sessionId, blocks⟩
  pure ⟨.syncBlocks, payload⟩

/-- The frames for the requested blocks, with the blocks collected for the next frame. -/
def syncFrames (sessionId : P2PSyncSessionId) : List Block → List Bytes → List (Result P2PFrame)
  | [], collected => if collected.isEmpty then [] else [syncBlocksFrame sessionId collected]
  | block :: rest, collected =>
    match encodeBlock "sync block exceeds payload limit" block with
    | .error e => [.error e]
    | .ok encoded =>
      -- the bytes collected so far are not counted
      if 16 + 4 + (collected.length + 1) * 4 + encoded.length > czrP2PMaxPayload then
        if collected.isEmpty then syncFrames sessionId rest collected
        else syncBlocksFrame sessionId collected :: syncFrames sessionId rest [encoded]
      else syncFrames sessionId rest (collected ++ [encoded])

def handleGetSyncBlocks (payload : Bytes) (node : Node K) : Outcome K :=
  node.reply (do
    let request ← GetSyncBlocksMessage.deserializeBinary payload
    if node.storage.isNone then pure [syncBlocksFrame request.sessionId []]
    else do
      let chain ← node.storage.load K
      match request.blockHashes.mapM fun hash => (chainIndex K chain hash).bind fun i => chain[i]? with
      | none => pure [syncBlocksFrame request.sessionId []]
      | some requested => pure (syncFrames request.sessionId requested []))

/-! ## Receiving blocks -/

def readRelayedBlock : Reader Error Block :=
  (readCount czrP2PMaxPayload "relayed block too large").andThen fun size => readPiece size Block.deserializeFull

def readRelayedBlocks : Reader Error (List Block) :=
  (readPositiveCount maxBatch "invalid relayed block count").andThen fun count => readMany readRelayedBlock count

/-- The chain with what follows from it, as the loop over a batch keeps it. -/
structure RelayState where
  chain : List Block
  utxos : UTXOSet
  totalIssued : UInt64

/-- One block of a batch; a block that fails a check is skipped. -/
def relayBlock (K : Crypto) (st : RelayState) (block : Block) : Result RelayState := do
  let basic ← block.validateBasic K
  if !basic then pure st
  else match st.chain.getLast? with
    | none => pure st
    | some previous =>
      if block.header.height ≠ previous.header.height + 1 then pure st
      else if block.header.previousHash ≠ previous.hash K then pure st
      else if block.header.timestamp < previous.header.timestamp then pure st
      else if block.header.difficulty ≠ expectedNextDifficulty st.chain then pure st
      else match addCoinbaseIssuance block st.totalIssued with
        | none => pure st
        | some totalIssued => do
          match ← applyBlockTransactionsInPlaceAfterBasicValidation K block st.utxos with
          | none => pure st
          | some utxos => pure ⟨st.chain ++ [block], utxos, totalIssued⟩

def handleBlocks (payload : Bytes) (node : Node K) : Result Unit × Node K :=
  node.commit (do
    let incoming ← readAll readRelayedBlocks "trailing bytes in relayed blocks payload" payload
    if node.storage.isNone then fail "no local chain"
    else do
      let chain ← node.storage.load K
      if chain.isEmpty then fail "cannot process blocks on empty chain"
      else do
        let utxos ← rebuildUtxoSet K chain
        match chainIssuance chain 0 with
        | none => fail "stored chain has invalid coinbase issuance"
        | some totalIssued => do
          let st ← incoming.foldlM (relayBlock K) ⟨chain, utxos, totalIssued⟩
          if st.chain.length = chain.length then pure ((), node)
          else do
            let storage ← BlockchainStorage.replace K st.chain
            pure ((), { node with storage := storage }))

/-- Put the received blocks into their places; those before a throw stay there. -/
def receiveBlocks (K : Crypto) (headers : List BlockHeader) :
    List Bytes → List (Option Block) → Result Unit × List (Option Block)
  | [], blocks => (.ok (), blocks)
  | encoded :: rest, blocks =>
    match Block.deserializeFull encoded with
    | .error e => (.error e, blocks)
    | .ok block =>
      match headers.findIdx? fun header => header.hash K = block.hash K with
      | none => (fail "sync block was not requested", blocks)
      | some index =>
        if (blocks[index]?.join).isSome then (fail "duplicate sync block", blocks)
        else if headers[index]?.map (fun header => header.hash K) ≠ some (block.header.hash K) then
          (fail "sync block header mismatch", blocks)
        else receiveBlocks K headers rest (blocks.set index (some block))

def assembleSession (headers : List BlockHeader) (blocks : List Block) (node : Node K) : Result (List Block) :=
  if node.storage.isNone then fail "cannot assemble sync candidate without local chain"
  else do
    let current ← node.storage.load K
    match assembleCandidateChain K current headers blocks with
    | none => fail "failed to assemble sync candidate"
    | some candidate => pure candidate

/-- Replace the chain by the candidate of a complete session; the session ends either way. -/
def completeSession (walk : Walk K) (id : UInt64) (headers : List BlockHeader) (blocks : List Block) (node : Node K) :
    Result Unit × Node K :=
  match node.assembleSession headers blocks with
  | .error e => (.error e, node.setPending id none)
  | .ok candidate =>
    let replaced := node.replaceChain walk candidate
    (do
      let accepted ← replaced.1
      if !accepted then fail "sync candidate was rejected" else pure (),
     replaced.2.setPending id none)

def handleSyncBlocks (walk : Walk K) (id : UInt64) (payload : Bytes) (node : Node K) : Result Unit × Node K :=
  match SyncBlocksMessage.deserializeBinary payload with
  | .error e => (.error e, node)
  | .ok message =>
    match node.pendingChainSyncs id with
    | none => (.ok (), node)
    | some pending =>
      if pending.sessionId ≠ message.sessionId then (.ok (), node)
      else if message.blocks.isEmpty then (.ok (), node.setPending id none)
      else
        let received := receiveBlocks K pending.headers message.blocks pending.blocks
        let node := node.setPending id (some { pending with blocks := received.2 })
        match received.1 with
        | .error e => (.error e, node)
        | .ok () =>
          if received.2.all Option.isSome then node.completeSession walk id pending.headers (received.2.filterMap fun b => b)
          else (.ok (), node)

/-! ## Transactions and pings -/

def makeTransactionFrame (tx : Transaction) : Result P2PFrame := do
  let encoded ← tx.serializeFullBinary
  if encoded.isEmpty || encoded.length > czrP2PMaxPayload then fail "transaction too large for P2P relay"
  else pure ⟨.transaction, encoded⟩

/-- A transaction that is malformed or refused is dropped, and so is every exception. -/
def handleTransaction (payload : Bytes) (node : Node K) : Result Unit × Node K :=
  if payload.isEmpty || payload.length > czrP2PMaxPayload then (.ok (), node)
  else match Transaction.deserializeFull payload with
    | .error _ => (.ok (), node)
    | .ok tx => (.ok (), (node.acceptTransaction tx).2)

def handlePing (payload : Bytes) (node : Node K) : Outcome K :=
  node.reply (do
    let nonce ← readAll readU64 "Trailing P2P ping data" payload
    pure [.ok ⟨.pong, writeU64 nonce⟩])

def handlePong (payload : Bytes) (node : Node K) : Outcome K :=
  node.reply (do
    let _ ← readAll readU64 "Trailing P2P pong data" payload
    pure [])

def handleGetMempool (walk : Walk K) (payload : Bytes) (node : Node K) : Outcome K :=
  node.reply (
    if !payload.isEmpty then fail "GetMempool payload must be empty"
    else .ok ((walk.order node.mempool).map makeTransactionFrame))

def handleGetTransaction (payload : Bytes) (node : Node K) : Outcome K :=
  node.reply (
    if h : payload.length = 32 then
      match node.mempool.transactions.lookup ⟨payload, h⟩ with
      | none => .ok []
      | some tx => .ok [makeTransactionFrame tx]
    else fail "GetTransaction payload must be 32 bytes")

/-! ## Dispatch -/

/-- What the code takes from outside for one frame: a random session id, the order of a map, and what the peer table
makes of the two messages about peers, which it may refuse or answer. -/
structure Choice (K : Crypto) where
  sessionId : P2PSyncSessionId
  walk : Walk K
  discovery : P2PFrame → Result (List (Result P2PFrame))

def handleFrame (choice : Choice K) (id : UInt64) (frame : P2PFrame) (node : Node K) : Outcome K :=
  match frame.type with
  | .blocks => .silent (node.handleBlocks frame.payload)
  | .getSyncBlocks => node.handleGetSyncBlocks frame.payload
  | .syncBlocks => .silent (node.handleSyncBlocks choice.walk id frame.payload)
  | .getBlocks => node.handleGetBlocks frame.payload
  | .getHeaders => node.handleGetHeaders frame.payload
  | .headers => node.handleHeaders id choice.sessionId frame.payload
  | .transaction => .silent (node.handleTransaction frame.payload)
  | .ping => node.handlePing frame.payload
  | .pong => node.handlePong frame.payload
  | .reject => ⟨.ok (), node, []⟩
  | .getMempool => node.handleGetMempool choice.walk frame.payload
  | .getTransaction => node.handleGetTransaction frame.payload
  | .getPeers => node.reply (choice.discovery frame)
  | .peers => node.reply (choice.discovery frame)
  -- a second greeting is ignored
  | .hello => ⟨.ok (), node, []⟩

/-- The reader of a peer: frames in order, until a handler throws. -/
def readFrames (choice : Choice K) (id : UInt64) : List P2PFrame → Node K → Outcome K
  | [], node => ⟨.ok (), node, []⟩
  | frame :: rest, node =>
    let first := node.handleFrame choice id frame
    match first.result with
    | .error e => ⟨.error e, first.node, first.sent⟩
    | .ok () =>
      let later := readFrames choice id rest first.node
      ⟨later.result, later.node, first.sent ++ later.sent⟩

end Node

/-! ## Runs -/

/-- The calls that may change the chain or the pool, each under its locks. -/
inductive Call (K : Crypto) where
  | acceptTransaction (tx : Transaction)
  | commitMined (candidate : Block)
  | submitPoolSolution (candidate : Block)
  | replaceChain (walk : Walk K) (candidate : List Block)
  | handleBlocks (payload : Bytes)

/-- The node after a call, whether it returned or threw. -/
def Node.call {K : Crypto} (node : Node K) : Call K → Node K
  | .acceptTransaction tx => (node.acceptTransaction tx).2
  | .commitMined candidate => (node.commitMined candidate).2
  | .submitPoolSolution candidate => (node.submitPoolSolution candidate).2
  | .replaceChain walk candidate => (node.replaceChain walk candidate).2
  | .handleBlocks payload => (node.handleBlocks payload).2

def Node.run {K : Crypto} (node : Node K) (calls : List (Call K)) : Node K := calls.foldl Node.call node

end Caesar
