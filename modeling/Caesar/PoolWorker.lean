import Caesar.Pool

/-!
# The worker of the pool

`pool_worker.cpp`, and the text in which the server hands out a job. The worker
reads the reply with scanners of its own, looks for nonces that meet the share
difficulty, and sends each of them back.
-/

namespace Caesar

open Codec Text

/-- `emit_current_job`. -/
def PoolJobState.emit (job : PoolJobState) : Bytes :=
  ascii "\x7b\"ok\":true" ++
    (ascii ",\"job_id\":" ++ (decimal job.jobId.toNat ++
    (ascii ",\"header_hex\":\"" ++ (job.headerHex ++ (ascii "\"" ++
    (ascii ",\"share_difficulty\":" ++ (decimal job.shareDifficulty.toNat ++
    (ascii ",\"block_difficulty\":" ++ (decimal job.blockDifficulty.toNat ++
    (ascii ",\"height\":" ++ (decimal job.height.toNat ++ ascii "\x7d")))))))))))

namespace PoolWorker

/-! ## The scanners, the same as those of the server -/

def jsonStr (b : Bytes) (k : String) : Bytes := stringField k b

def jsonU64 (b : Bytes) (k : String) : UInt64 := numberField k b

def hexToBytes (h : Bytes) : Bytes := poolHexToBytes h

/-! ## The loop of a thread -/

structure Job where
  jobId : UInt64
  shareDiff : UInt32
  headerBytes : Bytes
  deriving DecidableEq

/-- What the thread works on after a reply; without a job it asks again later. -/
def readJob (body : Bytes) : Option Job :=
  let jobId := jsonU64 body "job_id"
  let shareDiff := (jsonU64 body "share_difficulty").toUInt32
  let headerHex := jsonStr body "header_hex"
  if jobId = 0 ∨ headerHex = [] then none else some ⟨jobId, shareDiff, hexToBytes headerHex⟩

def submitBody (address : Bytes) (jobId nonce : UInt64) : Bytes :=
  ascii "\x7b\"address\":\"" ++ (address ++ (ascii "\"" ++
    (ascii ",\"job_id\":" ++ (decimal jobId.toNat ++
    (ascii ",\"nonce\":" ++ (decimal nonce.toNat ++ ascii "\x7d"))))))

/-- One turn of the inner loop: what is sent for the nonce, if anything. -/
def tryNonce (K : Crypto) (address : Bytes) (job : Job) (nonce : UInt64) : Option Bytes :=
  let hash := calculatePowHash K job.headerBytes nonce
  if powMeetsDifficulty hash job.shareDiff then some (submitBody address job.jobId nonce) else none

end PoolWorker

end Caesar
