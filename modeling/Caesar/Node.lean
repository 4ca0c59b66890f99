import Caesar.Mempool

/-!
# The node: its stored chain, its mempool and the calls that change them

Storage is a cell that holds the chain last saved; reading it back decodes what
was encoded. A call returns its result and the node it leaves. Announcing to the
peers comes after the locks are released and changes neither chain nor pool.
-/

namespace Caesar

open Codec

/-! ## Storage -/

def maxBlocks : Nat := 10000000

def maxBlockBytes : Nat := 16 * 1024 * 1024

/-- The chain in the file, or `none` when there is no file. -/
abbrev BlockchainStorage := Option (List Block)

def writeBlock (block : Block) : Result Bytes := do
  let data ← block.serializeFullBinary
  if data.isEmpty || data.length > maxBlockBytes then fail "block exceeds storage size limit"
  else if data.length > uint32Max then fail "block is too large for storage format"
  else pure data

/-- What `read_block` makes of the record of `block`. -/
def readStoredBlock (block : Block) : Result Block := do
  let data ← block.serializeFullBinary
  if data.length = 0 ∨ data.length > maxBlockBytes then fail "invalid stored block size"
  else Block.deserializeFull data

section
variable (K : Crypto)

namespace BlockchainStorage

def save (chain : List Block) : Result BlockchainStorage :=
  if chain.isEmpty then fail "cannot save empty blockchain"
  else do
    let valid ← validateCandidateChain K chain
    if !valid then fail "refusing to save invalid blockchain"
    else do
      let _ ← chain.mapM writeBlock
      pure (some chain)

def replace (chain : List Block) : Result BlockchainStorage := save K chain

def load (storage : BlockchainStorage) : Result (List Block) :=
  match storage with
  | none => fail "failed to open blockchain storage"
  | some stored =>
    if stored.length = 0 ∨ stored.length > maxBlocks then fail "invalid blockchain block count"
    else do
      let chain ← stored.mapM readStoredBlock
      let valid ← validateCandidateChain K chain
      if !valid then fail "stored blockchain failed canonical validation" else pure chain

def boolText (b : Bool) : String := if b then "1" else "0"

/-- The diagnosis that `append` throws. -/
def basicFailure (block : Block) : Result BlockchainStorage := do
  let merkle ← block.validateMerkleRoot K
  let witness ← block.validateWitnessRoot K
  fail ("block basic validation failed: version=" ++ boolText (block.header.version ≠ 0) ++ " pow=" ++
    boolText (block.validatePow K) ++ " coinbase=" ++
    boolText (validateCoinbasePositionAndReward block.transactions block.header.height) ++ " merkle=" ++
    boolText merkle ++ " witness=" ++ boolText witness ++ " height=" ++ toString block.header.height.toNat ++
    " difficulty=" ++ toString block.header.difficulty.toNat)

/-- The checks of `append` after the header's: the short chains have their own. -/
def checkAppended (chain : List Block) (block : Block) : Result BlockchainStorage :=
  if chain.length < czrDifficultyWindow + 1 then
    if block.header.difficulty ≠ expectedNextDifficulty chain then
      fail "block difficulty does not match bootstrap rule"
    else do
      let basic ← block.validateBasic K
      if !basic then basicFailure K block else save K (chain ++ [block])
  else do
    let previousUtxos ← rebuildUtxoSet K chain
    let valid ← validateBlockConsensus K block chain previousUtxos
    if !valid then fail "block consensus validation failed" else save K (chain ++ [block])

def append (storage : BlockchainStorage) (block : Block) : Result BlockchainStorage := do
  let chain ← if storage.isSome then load K storage else pure []
  match chain.getLast? with
  | none => do
    let basic ← block.validateBasic K
    if !basic then fail "cannot store invalid first block" else save K [block]
  | some previous =>
    if block.header.height ≠ previous.header.height + 1 then fail "block height does not extend stored blockchain"
    else if block.header.previousHash ≠ previous.hash K then fail "block previous hash does not match stored tip"
    else if block.header.timestamp < previous.header.timestamp then fail "block timestamp is before stored tip"
    else checkAppended K chain block

end BlockchainStorage

/-! ## Genesis -/

def networkTestnet : UInt32 := 2

def genesisBurnRecipient : Bytes := asciiBytes
  ['C', 'A', 'E', 'S', 'A', 'R', '_', 'G', 'E', 'N', 'E', 'S', 'I', 'S', '_', 'B', 'U', 'R', 'N']

def testnetBurnRecipient : Bytes := asciiBytes
  ['C', 'A', 'E', 'S', 'A', 'R', '_', 'T', 'E', 'S', 'T', 'N', 'E', 'T', '_', 'G', 'E', 'N', 'E', 'S', 'I', 'S', '_',
    'B', 'U', 'R', 'N']

def buildCanonicalGenesis (burnRecipient : Bytes) : Result Block :=
  Block.updateMerkleRoot K
    { header :=
        { version := 1, height := 0, previousHash := Hash256.zero, merkleRoot := Hash256.zero,
          witnessRoot := Hash256.zero, timestamp := 0, nonce := 0, difficulty := 0 }
      transactions :=
        [{ version := 1, coinbaseData := [], inputs := [], outputs := [⟨1, burnRecipient⟩], witness := [] }] }

def ensureChain (networkId : UInt32) (storage : BlockchainStorage) : Result BlockchainStorage :=
  if storage.isSome then do
    let _ ← storage.load K
    pure storage
  else do
    let genesis ← buildCanonicalGenesis K
      (if networkId = networkTestnet then testnetBurnRecipient else genesisBurnRecipient)
    BlockchainStorage.save K [genesis]

end

/-! ## The node -/

structure P2PSyncSessionId where
  high : UInt64
  low : UInt64
  deriving DecidableEq, Repr

/-- A fork whose blocks were requested from a peer: each header, and its block once received. -/
structure PendingChainSync where
  sessionId : P2PSyncSessionId
  headers : List BlockHeader
  blocks : List (Option Block)

/-- The relay keeps at most one pending fork per peer. -/
structure Node (K : Crypto) where
  storage : BlockchainStorage
  mempool : Mempool K
  running : Bool
  pendingChainSyncs : UInt64 → Option PendingChainSync

namespace Node

variable {K : Crypto}

/-- A call that changes the node, if at all, only when it returns. -/
def commit {α : Type} (node : Node K) (call : Result (α × Node K)) : Result α × Node K :=
  match call with
  | .ok (a, after) => (.ok a, after)
  | .error e => (.error e, node)

def acceptTransaction (tx : Transaction) (node : Node K) : Result MempoolRejectReason × Node K :=
  node.commit (
    if !node.running then fail "cannot accept transaction while node is stopped"
    else do
      let currentChain ← node.storage.load K
      if currentChain.isEmpty then fail "cannot accept transaction on empty blockchain"
      else do
        let utxos ← rebuildUtxoSet K currentChain
        if isCoinbaseTransaction tx then pure (.invalidTransaction, node)
        else do
          let result ← node.mempool.accept tx utxos
          pure (result.1, { node with mempool := result.2 }))

/-- The chain is replaced before the mempool is revalidated, so it stays replaced when that throws. -/
def replaceChain (walk : Walk K) (candidate : List Block) (node : Node K) : Result Bool × Node K :=
  let replacement : Result (Option (List Block × BlockchainStorage)) :=
    if !node.running then fail "cannot replace chain while node is stopped"
    else do
      let current ← node.storage.load K
      ifSome (prepareChainReplacement K current candidate) fun plan => do
        let storage ← BlockchainStorage.replace K plan.chain
        pure (some (plan.chain, storage))
  match replacement with
  | .error e => (.error e, node)
  | .ok none => (.ok false, node)
  | .ok (some (chain, storage)) =>
    let revalidated := revalidateMempoolAfterReorg K walk node.mempool chain
    (revalidated.1.map fun _ => true, { node with storage := storage, mempool := revalidated.2 })

/-! ## Mining -/

def buildCandidate (minerRecipient : Bytes) (now : UInt64) (node : Node K) : Result Block := do
  let chain ← node.storage.load K
  match chain.getLast? with
  | none => fail "cannot mine on empty blockchain"
  | some previous => do
    let utxos ← rebuildUtxoSet K chain
    let timestamp := if now < previous.header.timestamp then previous.header.timestamp else now
    buildBlock K previous node.mempool minerRecipient timestamp (expectedNextDifficulty chain) 0 utxos

def buildPoolCandidate (minerRecipient : Bytes) (now : UInt64) (node : Node K) : Result Block :=
  if !node.running then fail "cannot build candidate while node is stopped"
  else if minerRecipient.isEmpty then fail "miner recipient is empty"
  else node.buildCandidate minerRecipient now

/-- `mine_one_block` up to the proof of work, with no lock held after the candidate is built. -/
def mineCandidate (minerRecipient : Bytes) (maxAttempts now : UInt64) (node : Node K) : Result Block :=
  if !node.running then fail "cannot mine while node is stopped"
  else if minerRecipient.isEmpty then fail "miner recipient is empty"
  else do
    let candidate ← node.buildCandidate minerRecipient now
    match ← mineBlock K candidate 0 maxAttempts with
    | none => fail "mining failed"
    | some mined => pure mined

def appendBlock (candidate : Block) (node : Node K) : Result (Node K) := do
  let storage ← node.storage.append K candidate
  pure { node with storage := storage, mempool := Mempool.empty K }

/-- `mine_one_block` from where it takes the locks again. -/
def commitMined (candidate : Block) (node : Node K) : Result Unit × Node K :=
  node.commit (do
    let currentChain ← node.storage.load K
    match currentChain.getLast? with
    | none => fail "blockchain became empty while mining"
    | some previous =>
      if candidate.header.previousHash ≠ previous.hash K ∨ candidate.header.height ≠ previous.header.height + 1 then
        fail "mined block became stale; chain advanced during mining"
      else do
        let currentUtxos ← rebuildUtxoSet K currentChain
        let valid ← validateBlockConsensus K candidate currentChain currentUtxos
        if !valid then fail "mined block failed consensus"
        else do
          let after ← node.appendBlock candidate
          pure ((), after))

def submitPoolSolution (candidate : Block) (node : Node K) : Result Bool × Node K :=
  node.commit (
    if !node.running then fail "cannot submit solution while node is stopped"
    else do
      let currentChain ← node.storage.load K
      match currentChain.getLast? with
      | none => fail "cannot submit on empty blockchain"
      | some previous =>
        if candidate.header.previousHash ≠ previous.hash K then pure (false, node)
        else if candidate.header.height ≠ previous.header.height + 1 then pure (false, node)
        else if !candidate.validatePow K then pure (false, node)
        else do
          let previousUtxos ← rebuildUtxoSet K currentChain
          let valid ← validateBlockConsensus K candidate currentChain previousUtxos
          if !valid then pure (false, node)
          else do
            let after ← node.appendBlock candidate
            pure (true, after))

/-- `mine_one_block` when nothing else runs during the proof of work. -/
def mineOneBlock (minerRecipient : Bytes) (maxAttempts now : UInt64) (node : Node K) : Result Unit × Node K :=
  match node.mineCandidate minerRecipient maxAttempts now with
  | .error e => (.error e, node)
  | .ok candidate => node.commitMined candidate

end Node

end Caesar
