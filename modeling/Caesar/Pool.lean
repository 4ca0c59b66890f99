import Caesar.Cache
import Caesar.Lib.Interleave
import Caesar.PoolState

/-!
# The mining pool server

Workers register, fetch a job and submit nonces for it. A request holds
`g_pool_mutex` only for single sections and never while it calls the node, so the
sections of different requests interleave. Each section is one step here; what a
request keeps between two of them is its thread.
-/

namespace Caesar

open Codec Text

/-! ## Fields of a request body -/

/-- The text between the next two quotes after the colon that follows the key. -/
def stringField (key : String) (body : Bytes) : Bytes :=
  Option.getD (do
    let rest ← suffixFrom (quoted key) body
    let (_, rest) ← cut 58 rest
    let (_, rest) ← cut 34 rest
    let (value, _) ← cut 34 rest
    some value) []

/-- The next digits after the colon that follows the key. -/
def numberField (key : String) (body : Bytes) : UInt64 :=
  Option.getD (do
    let rest ← suffixFrom (quoted key) body
    let (_, rest) ← cut 58 rest
    stoull ((rest.dropWhile (!isDigit ·)).takeWhile isDigit)) 0

/-! ## The server -/

structure PoolJobState where
  active : Bool
  jobId : UInt64
  headerHex : Bytes
  shareDifficulty : UInt32
  blockDifficulty : UInt32
  height : UInt64
  candidate : Block
  minerAddress : Bytes
  deriving DecidableEq

/-- The globals of the pool, the statics of `/api/pool/submit` and the state file. -/
structure PoolServer (D : Doubles) where
  state : PoolState D
  stateLoaded : Bool
  currentJob : PoolJobState
  ownerShareAccum : UInt64
  dupSeenJob : UInt64
  dupSeen : List Bytes
  file : Option Bytes

structure Reading where
  height : UInt64
  chain : List Block
  deriving DecidableEq

inductive PoolReply where
  | registered (address : Bytes)
  | job (job : PoolJobState) (read : Reading)
  | stale
  | duplicate
  | submitted (credited isBlock blockAdded : Bool)
  | failed (status : Nat) (error : String)
  deriving DecidableEq

/-- A share that was counted, and whether it completed one for the owner of the pool. -/
structure Credit where
  jobId : UInt64
  nonce : UInt64
  address : Bytes
  bonus : Bool
  deriving DecidableEq

structure Submission where
  addr : Bytes
  nonce : UInt64
  jobId : UInt64
  solved : Block
  creditedCandidate : Bool
  isBlock : Bool

def poolHexValue (c : UInt8) : Option UInt8 :=
  if 48 ≤ c ∧ c ≤ 57 then some (c - 48)
  else if 97 ≤ c ∧ c ≤ 102 then some (c - 97 + 10)
  else if 65 ≤ c ∧ c ≤ 70 then some (c - 65 + 10)
  else none

/-- The pairs of digits up to the first that is none. -/
def poolHexToBytes : Bytes → Bytes
  | hi :: lo :: rest =>
    match poolHexValue hi, poolHexValue lo with
    | some h, some l => ((h <<< 4) ||| l) :: poolHexToBytes rest
    | _, _ => []
  | _ => []

namespace PoolServer

variable {D : Doubles}

/-- The file is read once, by the first request that needs it. -/
def loadOnce (s : PoolServer D) : PoolServer D :=
  if s.stateLoaded then s else { s with stateLoaded := true, state := s.state.load s.file }

def saved (s : PoolServer D) : PoolServer D := { s with file := some s.state.save }

/-- `g_pool_workers[addr]`, which makes the worker when there is none. -/
def workerAt (workers : OrdMap Bytes PoolWorkerInfo) (addr : Bytes) : PoolWorkerInfo := (workers.find? addr).getD {}

def registerWorker (addr name : Bytes) (now : UInt64) (st : PoolState D) : PoolState D :=
  let w := workerAt st.workers addr
  { st with
    firstSeenUnix := if st.firstSeenUnix = 0 then now else st.firstSeenUnix
    allUsers := st.allUsers.insert addr ()
    workers := st.workers.insert addr
      { w with address := addr, workerName := if name.isEmpty then w.workerName else name, lastSeen := now } }

/-- `/api/pool/register`. -/
def register (body : Bytes) (now : UInt64) (s : PoolServer D) : PoolReply × PoolServer D :=
  let addr := stringField "address" body
  if addr.isEmpty then (.failed 400 "address required", s)
  else
    let s := s.loadOnce
    (.registered addr, { s with state := registerWorker addr (stringField "worker" body) now s.state }.saved)

/-! ## Submitting -/

/-- `/api/pool/submit` up to the hash, which is computed without the lock. -/
def beginSubmit (K : Crypto) (body : Bytes) (s : PoolServer D) : Except PoolReply Submission :=
  let addr := stringField "address" body
  let nonce := numberField "nonce" body
  let job := s.currentJob
  if addr.isEmpty then .error (.failed 400 "address required")
  else if !(ascii "CZ").isPrefixOf addr then .error (.failed 400 "valid address required")
  else if !job.active || job.jobId ≠ numberField "job_id" body then .error .stale
  else if job.headerHex.isEmpty then .error (.failed 200 "empty job header")
  else if job.blockDifficulty = 0 then .error (.failed 200 "invalid block difficulty")
  else
    let hash := calculatePowHash K (poolHexToBytes job.headerHex) nonce
    .ok
      { addr := addr, nonce := nonce, jobId := job.jobId
        solved := { job.candidate with header := { job.candidate.header with nonce := nonce } }
        creditedCandidate := powMeetsDifficulty hash job.shareDifficulty
        isBlock := powMeetsDifficulty hash job.blockDifficulty }

def dupKey (addr : Bytes) (nonce : UInt64) : Bytes := addr ++ 58 :: decimal nonce.toNat

def oneShare (defaultName : Bytes) (now : UInt64) (w : PoolWorkerInfo) : PoolWorkerInfo :=
  { w with
    workerName := if w.workerName.isEmpty then defaultName else w.workerName
    shares := w.shares + 1, sharesPending := w.sharesPending + 1, lastSeen := now }

def creditWorker (addr : Bytes) (now : UInt64) (workers : OrdMap Bytes PoolWorkerInfo) : OrdMap Bytes PoolWorkerInfo :=
  let w := workerAt workers addr
  workers.insert addr
    (oneShare (ascii "worker") now { w with address := if w.address.isEmpty then addr else w.address })

def creditOwner (owner : Bytes) (now : UInt64) (workers : OrdMap Bytes PoolWorkerInfo) : OrdMap Bytes PoolWorkerInfo :=
  workers.insert owner (oneShare (ascii "pool-owner") now { workerAt workers owner with address := owner })

/-- Every fourth share of others gives the owner of the pool one. -/
def completesBonus (addr owner : Bytes) (s : PoolServer D) : Bool :=
  !owner.isEmpty && addr ≠ owner && s.ownerShareAccum + 1 ≥ 4

def countShare (sub : Submission) (owner : Bytes) (now : UInt64) (s : PoolServer D) : Credit × PoolServer D :=
  let workers := creditWorker sub.addr now s.state.workers
  let bonus := s.completesBonus sub.addr owner
  (⟨sub.jobId, sub.nonce, sub.addr, bonus⟩,
    { s with
      state :=
        { s.state with
          totalShares := s.state.totalShares + 1
          workers := if bonus then creditOwner owner now workers else workers }
      ownerShareAccum :=
        if owner.isEmpty || sub.addr = owner then s.ownerShareAccum else if bonus then 0 else s.ownerShareAccum + 1 })

/-- The keys seen belong to one job, and are dropped with the first share of another. -/
def seenFor (jobId : UInt64) (s : PoolServer D) : PoolServer D :=
  if s.dupSeenJob ≠ jobId then { s with dupSeen := [], dupSeenJob := jobId } else s

def creditShare (sub : Submission) (owner : Bytes) (now : UInt64) (s : PoolServer D) : Except PoolReply Credit × PoolServer D :=
  if !s.currentJob.active || s.currentJob.jobId ≠ sub.jobId then (.error .stale, s)
  else
    let s := s.seenFor sub.jobId
    if dupKey sub.addr sub.nonce ∈ s.dupSeen then (.error .duplicate, s)
    else
      let (credit, s) := countShare sub owner now { s with dupSeen := dupKey sub.addr sub.nonce :: s.dupSeen }
      (.ok credit, s)

/-- The section after the node took the block: whether the job was still the current one. -/
def blockFound (sub : Submission) (s : PoolServer D) : Bool × PoolServer D :=
  if s.currentJob.jobId = sub.jobId then
    (true,
      { s with
        state := { s.state with totalBlocks := s.state.totalBlocks + 1 }, currentJob := { s.currentJob with active := false } })
  else (false, s)

/-! ## Jobs -/

def heartbeat (addr : Bytes) (now : UInt64) (s : PoolServer D) : PoolServer D :=
  if addr.isEmpty then s
  else match s.state.workers.entries.find? fun kv => kv.2.address = addr with
    | none => s
    | some (key, w) =>
      { s with state := { s.state with workers := s.state.workers.insert key { w with lastSeen := now } } }

def fits (height : UInt64) (s : PoolServer D) : Bool := s.currentJob.active && s.currentJob.height = height + 1

def publish (candidate : Block) (recipient : Bytes) (s : PoolServer D) : PoolServer D :=
  { s with
    state := { s.state with jobCounter := s.state.jobCounter + 1 }
    currentJob :=
      { active := true, jobId := s.state.jobCounter + 1, headerHex := bytesToHex candidate.powHeader
        shareDifficulty := if candidate.header.difficulty > 8 then candidate.header.difficulty - 8 else 1
        blockDifficulty := candidate.header.difficulty, height := candidate.header.height, candidate := candidate
        minerAddress := recipient } }

/-! ## Payouts -/

theorem lexLe_of_lt : ∀ {a b : Bytes}, a < b → lexLe a b = true
  | [], _, _ => rfl
  | _ :: _, [], h => absurd h (List.not_lt_nil _)
  | a :: as, b :: bs, h => by
    rw [lexLe]
    rcases List.cons_lt_cons_iff.mp h with hlt | ⟨rfl, hlt⟩
    · rw [if_pos hlt]
    · rw [if_neg (UInt8.lt_irrefl a), if_neg (UInt8.lt_irrefl a)]
      exact lexLe_of_lt hlt

def pendingShares (workers : OrdMap Bytes PoolWorkerInfo) : PoolWorkers where
  entries := workers.entries.map fun kv => (kv.1, kv.2.sharesPending)
  sorted := List.pairwise_map.mpr (workers.sorted.imp fun h => ⟨fun he => List.lt_irrefl _ (he ▸ h), lexLe_of_lt h⟩)

/-- The last section of `pool_execute_payout`, with the record and the deductions that it makes. -/
def payout {K : Crypto} (call : PayoutCall K) (s : PoolServer D) : PoolServer D :=
  let call : PayoutCall K := { call with later := pendingShares s.state.workers, payouts := s.state.payouts }
  let outcome := call.poolExecutePayout
  let deducted := s.state.workers.mapWithKey fun key w =>
    { w with sharesPending := (OrdMap.valueOf key outcome.workers.entries).getD w.sharesPending }
  if outcome.result.ok then { s with state := { s.state with payouts := outcome.payouts, workers := deducted } }.saved else s

end PoolServer

/-! ## Threads -/

/-- `build_pool_candidate` after the chain was loaded. -/
def Node.assembleCandidate {K : Crypto} (chain : List Block) (minerRecipient : Bytes) (now : UInt64) (mempool : Mempool K) :
    Result Block :=
  match chain.getLast? with
  | none => fail "cannot mine on empty blockchain"
  | some previous => do
    let utxos ← rebuildUtxoSet K chain
    let timestamp := if now < previous.header.timestamp then previous.header.timestamp else now
    buildBlock K previous mempool minerRecipient timestamp (expectedNextDifficulty chain) 0 utxos

/-- What is left of a request for a job. `attempt` counts the rounds of the loop; from `readBuild` on the request holds
`g_pool_job_build_mutex`. -/
inductive JobPhase where
  | readInitial
  | compareInitial (initial : Reading)
  | waitBuild
  | readBuild (attempt : Nat)
  | compareBuild (attempt : Nat) (build : Reading)
  | loadChain (attempt : Nat) (build : Reading)
  | assemble (attempt : Nat) (build : Reading) (recipient : Bytes) (chain : List Block)
  | readLatest (attempt : Nat) (build : Reading) (recipient : Bytes) (candidate : Block)
  | publish (attempt : Nat) (build latest : Reading) (recipient : Bytes) (candidate : Block)

inductive SubmitPhase where
  | credit
  | solve (credited : Bool)
  | blockFound (credited : Bool)
  | save (credited blockAdded : Bool)

inductive PoolThread where
  | job (phase : JobPhase)
  | submit (sub : Submission) (phase : SubmitPhase)

/-- The server with its node. The lists record what happened: the shares counted, the ids of the jobs published, the
replies, and the chains that were stored. -/
structure PoolWorld (K : Crypto) (D : Doubles) where
  node : CachedNode K
  server : PoolServer D
  building : Bool
  credits : List Credit
  published : List UInt64
  replies : List PoolReply
  chains : List (List Block)

inductive PoolEvent (K : Crypto) where
  | register (body : Bytes) (now : UInt64)
  | payout (call : PayoutCall K)
  | job (address : Bytes) (now : UInt64)
  | submit (body : Bytes)
  | node (event : CachedNode.Event K)

/-- What a section may find: whether `try_lock` succeeds, the public key of the wallet, and the time. -/
structure PoolChoice where
  owned : Bool
  walletKey : Option Bytes
  now : UInt64

namespace PoolWorld

variable {K : Crypto} {D : Doubles}

def ownerAddress (K : Crypto) (walletKey : Option Bytes) : Bytes := (walletKey.map (addressFromPublicKey K)).getD []

def answer (w : PoolWorld K D) (reply : PoolReply) : PoolWorld K D × Option PoolThread :=
  ({ w with replies := reply :: w.replies }, none)

def withNode (w : PoolWorld K D) (node : CachedNode K) : PoolWorld K D :=
  { w with node := node, chains := node.node.storage.toList ++ w.chains }

/-- The build lock is released with the last section of a request. -/
def release (w : PoolWorld K D) : PoolWorld K D := { w with building := false }

def readHeight (w : PoolWorld K D) (owned : Bool) : Result Reading × PoolWorld K D :=
  let (result, node) := w.node.height owned
  (result.map fun r => ⟨r.1, r.2⟩, w.withNode node)

def retry (w : PoolWorld K D) (attempt : Nat) (error : String) : PoolWorld K D × Option PoolThread :=
  if attempt + 1 < 2 then (w, some (.job (.readBuild (attempt + 1)))) else w.release.answer (.failed 409 error)

def advanceJob (choice : PoolChoice) (w : PoolWorld K D) : JobPhase → PoolWorld K D × Option PoolThread
  | .readInitial =>
    match w.readHeight choice.owned with
    | (.error e, w) => w.answer (.failed 500 e.what)
    | (.ok initial, w) => (w, some (.job (.compareInitial initial)))
  | .compareInitial initial =>
    if w.server.fits initial.height then w.answer (.job w.server.currentJob initial) else (w, some (.job .waitBuild))
  | .waitBuild => if w.building then (w, some (.job .waitBuild)) else ({ w with building := true }, some (.job (.readBuild 0)))
  | .readBuild attempt =>
    match w.readHeight choice.owned with
    | (.error e, w) => w.release.answer (.failed 500 e.what)
    | (.ok build, w) => (w, some (.job (.compareBuild attempt build)))
  | .compareBuild attempt build =>
    if w.server.fits build.height then w.release.answer (.job w.server.currentJob build)
    else (w, some (.job (.loadChain attempt build)))
  | .loadChain attempt build =>
    let address := ownerAddress K choice.walletKey
    let recipient := if address.isEmpty then ascii "CAESAR_POOL_COINBASE" else address
    if !w.node.node.running then w.release.answer (.failed 500 "cannot build candidate while node is stopped")
    else match w.node.node.storage.load K with
      | .error e => w.release.answer (.failed 500 e.what)
      | .ok chain => (w, some (.job (.assemble attempt build recipient chain)))
  | .assemble attempt build recipient chain =>
    match Node.assembleCandidate chain recipient choice.now w.node.node.mempool with
    | .error e => w.release.answer (.failed 500 e.what)
    | .ok candidate => (w, some (.job (.readLatest attempt build recipient candidate)))
  | .readLatest attempt build recipient candidate =>
    match w.readHeight choice.owned with
    | (.error e, w) => w.release.answer (.failed 500 e.what)
    | (.ok latest, w) =>
      if candidate.header.height ≠ latest.height + 1 then w.retry attempt "chain advanced while building job"
      else (w, some (.job (.publish attempt build latest recipient candidate)))
  | .publish attempt build latest recipient candidate =>
    if w.server.fits latest.height then w.release.answer (.job w.server.currentJob latest)
    else if latest.height ≠ build.height then w.retry attempt "chain changed before job publish"
    else
      let server := w.server.publish candidate recipient
      let w := { w with server := server, published := server.currentJob.jobId :: w.published }
      w.release.answer (.job server.currentJob latest)

def afterCredit (w : PoolWorld K D) (sub : Submission) (credited : Bool) : PoolWorld K D × Option PoolThread :=
  if sub.isBlock then (w, some (.submit sub (.solve credited)))
  else if credited then (w, some (.submit sub (.save credited false)))
  else w.answer (.submitted credited sub.isBlock false)

def advanceSubmit (choice : PoolChoice) (w : PoolWorld K D) (sub : Submission) :
    SubmitPhase → PoolWorld K D × Option PoolThread
  | .credit =>
    match w.server.creditShare sub (ownerAddress K choice.walletKey) choice.now with
    | (.error reply, server) => { w with server := server }.answer reply
    | (.ok credit, server) => { w with server := server, credits := credit :: w.credits }.afterCredit sub true
  | .solve credited =>
    let accepted := w.node.node.submitPoolSolution sub.solved
    let w := w.withNode (w.node.call (.submitPoolSolution sub.solved))
    if accepted.1.toOption = some true then (w, some (.submit sub (.blockFound credited)))
    else if credited then (w, some (.submit sub (.save credited false)))
    else w.answer (.submitted credited sub.isBlock false)
  | .blockFound credited =>
    let (blockAdded, server) := w.server.blockFound sub
    let w := { w with server := server }
    if credited || blockAdded then (w, some (.submit sub (.save credited blockAdded)))
    else w.answer (.submitted credited sub.isBlock blockAdded)
  | .save credited blockAdded => { w with server := w.server.saved }.answer (.submitted credited sub.isBlock blockAdded)

def advance (choice : PoolChoice) (w : PoolWorld K D) : PoolThread → PoolWorld K D × Option PoolThread
  | .job phase => w.advanceJob choice phase
  | .submit sub phase => w.advanceSubmit choice sub phase

def spawn (event : PoolEvent K) (w : PoolWorld K D) : PoolWorld K D × Option PoolThread :=
  match event with
  | .register body now =>
    let (reply, server) := w.server.register body now
    { w with server := server }.answer reply
  | .payout call => ({ w with server := w.server.payout call }, none)
  | .job address now => ({ w with server := w.server.heartbeat address now }, some (.job .readInitial))
  | .submit body =>
    match w.server.beginSubmit K body with
    | .error reply => w.answer reply
    | .ok sub => if sub.creditedCandidate then (w, some (.submit sub .credit)) else w.afterCredit sub false
  | .node event => (w.withNode (w.node.step event), none)

def system (K : Crypto) (D : Doubles) : Interleave.System (PoolWorld K D) PoolThread (PoolEvent K) PoolChoice :=
  ⟨spawn, advance⟩

/-- The server as it starts over a running node, with the state file it finds. -/
def started (D : Doubles) (feePercent : D.Val) (node : Node K) (chain : List Block) (file : Option Bytes) : PoolWorld K D where
  node := .started node chain
  server :=
    { state := (PoolState.initial D feePercent).load file, stateLoaded := false
      currentJob := ⟨false, 0, [], 0, 0, 0, ⟨⟨1, 0, Hash256.zero, Hash256.zero, Hash256.zero, 0, 0, 0⟩, []⟩, []⟩
      ownerShareAccum := 0, dupSeenJob := 0, dupSeen := [], file := file }
  building := false
  credits := []
  published := []
  replies := []
  chains := node.storage.toList ++ [chain]

def run (events : List (Interleave.Event (PoolEvent K) PoolChoice)) (w : PoolWorld K D) : PoolWorld K D :=
  ((system K D).run events ⟨w, []⟩).shared

end PoolWorld

end Caesar
