import Caesar.PoolWorker
import Caesar.AddressSound
import Caesar.DifficultySound
import Caesar.TargetSound
import Caesar.JobSound

/-!
# Worker, server and node agree on a nonce

Both texts are flat, so a field is found at the first piece between quotes that is
its key (`Text.suffixFrom_quoted`). The header of a job is printed and read
back, and with its nonce zeroed it is the header that the node hashes.
-/

namespace Caesar

open Codec Text

/-! ## Fields of a flat text -/

section
variable {key : String} {first : Bytes} {pre : List Bytes} (post : List Bytes)

/-- The key is a piece of its own, before it there is none like it, and it has no colon. -/
structure KeyAt (key : String) (first : Bytes) (pre : List Bytes) : Prop where
  key_plain : 34 ∉ ascii key ∧ 58 ∉ ascii key
  first_plain : 34 ∉ first
  pre_plain : ∀ piece ∈ pre, 34 ∉ piece ∧ piece ≠ ascii key

theorem KeyAt.colon_not_mem (h : KeyAt key first pre) : 58 ∉ (34 :: (ascii key ++ [34]) : Bytes) := by
  simp [h.key_plain.2]

theorem stringField_pieces (h : KeyAt key first pre) {value : Bytes} (hvalue : 34 ∉ value) (hpost : post ≠ []) :
    stringField key (first ++ afterQuotes (pre ++ ascii key :: [58] :: value :: post)) = value := by
  have hfound := suffixFrom_quoted h.key_plain.1 h.first_plain h.pre_plain (List.cons_ne_nil [58] (value :: post))
  have hrest : afterQuotes (ascii key :: [58] :: value :: post) =
      34 :: (ascii key ++ [34]) ++ 58 :: 34 :: (value ++ afterQuotes post) := by
    simp [afterQuotes_cons]
  have hcolon : cut 58 (afterQuotes (ascii key :: [58] :: value :: post)) =
      some (34 :: (ascii key ++ [34]), 34 :: (value ++ afterQuotes post)) := by
    rw [hrest]
    exact cut_append h.colon_not_mem
  have hquote : cut 34 (34 :: (value ++ afterQuotes post)) = some ([], value ++ afterQuotes post) :=
    cut_append (k := []) (by simp)
  have hend : ∃ rest, cut 34 (value ++ afterQuotes post) = some (value, rest) := by
    cases post with
    | nil => exact absurd rfl hpost
    | cons piece post => exact ⟨_, cut_append hvalue⟩
  obtain ⟨rest, hend⟩ := hend
  simp [stringField, quoted, hfound, hcolon, hquote, hend]

theorem numberField_pieces (h : KeyAt key first pre) (n : UInt64) {c : UInt8} (hc : isDigit c = false) :
    numberField key (first ++ afterQuotes (pre ++ ascii key :: (58 :: (decimal n.toNat ++ [c])) :: post)) = n := by
  have hfound := suffixFrom_quoted h.key_plain.1 h.first_plain h.pre_plain
    (List.cons_ne_nil (58 :: (decimal n.toNat ++ [c])) post)
  have hrest : afterQuotes (ascii key :: (58 :: (decimal n.toNat ++ [c])) :: post) =
      34 :: (ascii key ++ [34]) ++ 58 :: (decimal n.toNat ++ c :: afterQuotes post) := by
    simp [afterQuotes_cons]
  have hcolon : cut 58 (afterQuotes (ascii key :: (58 :: (decimal n.toNat ++ [c])) :: post)) =
      some (34 :: (ascii key ++ [34]), decimal n.toNat ++ c :: afterQuotes post) := by
    rw [hrest]
    exact cut_append h.colon_not_mem
  have hdigits : ∀ d ∈ decimal n.toNat, isDigit d = true := fun d hd => isDigit_decimal hd
  have hskip : (decimal n.toNat ++ c :: afterQuotes post).dropWhile (!isDigit ·) = decimal n.toNat ++ c :: afterQuotes post := by
    cases hd : decimal n.toNat with
    | nil => exact absurd hd (decimal_ne_nil _)
    | cons d ds => exact List.dropWhile_cons_of_neg (by simp [hdigits d (by simp [hd])])
  have htake : (decimal n.toNat ++ c :: afterQuotes post).takeWhile isDigit = decimal n.toNat :=
    takeWhile_run hdigits (by simp [hc])
  simp [numberField, quoted, hfound, hcolon, hskip, htake, stoull_decimal]

theorem plain_number (n : Nat) {c : UInt8} (hc : c ≠ 34) {key : Bytes} (hkey : 58 ∉ key) :
    34 ∉ (58 :: (decimal n ++ [c]) : Bytes) ∧ 58 :: (decimal n ++ [c]) ≠ key := by
  constructor
  · simp [not_mem_decimal (b := 34) (by decide), hc.symm]
  · intro h
    simp [← h] at hkey

end

/-! ## The two texts in pieces -/

theorem emit_pieces (job : PoolJobState) : job.emit = [123] ++ afterQuotes
    [ascii "ok", ascii ":true,", ascii "job_id", 58 :: (decimal job.jobId.toNat ++ [44]), ascii "header_hex", [58],
      job.headerHex, [44], ascii "share_difficulty", 58 :: (decimal job.shareDifficulty.toNat ++ [44]),
      ascii "block_difficulty", 58 :: (decimal job.blockDifficulty.toNat ++ [44]), ascii "height",
      58 :: (decimal job.height.toNat ++ [125])] := by
  simp [PoolJobState.emit, afterQuotes, ascii]

theorem submitBody_pieces (address : Bytes) (jobId nonce : UInt64) :
    PoolWorker.submitBody address jobId nonce = [123] ++ afterQuotes
      [ascii "address", [58], address, [44], ascii "job_id", 58 :: (decimal jobId.toNat ++ [44]), ascii "nonce",
        58 :: (decimal nonce.toNat ++ [125])] := by
  simp [PoolWorker.submitBody, afterQuotes, ascii]

/-! ## What each side reads -/

theorem poolHexValue_hexDigit {n : UInt8} (h : n.toNat < 16) : poolHexValue (hexDigit n) = some n :=
  Bits.forall_byte (p := fun n => poolHexValue (hexDigit n) = some n) (by decide) h

theorem poolHexToBytes_bytesToHex (bytes : Bytes) : poolHexToBytes (bytesToHex bytes) = bytes := by
  induction bytes with
  | nil => rfl
  | cons b bytes ih =>
    obtain ⟨hhi, hlo, hb⟩ := nibbles_shift_or b
    rw [bytesToHex_cons, poolHexToBytes, poolHexValue_hexDigit hhi, poolHexValue_hexDigit hlo]
    simp [hb, ih]

theorem bytesToHex_ne_nil {bytes : Bytes} (h : bytes ≠ []) : bytesToHex bytes ≠ [] := by
  intro hnil
  apply h
  rw [← poolHexToBytes_bytesToHex bytes, hnil]
  rfl

namespace PoolWorker

section
variable {job : PoolJobState} {header : Bytes}

theorem jobId_emit (job : PoolJobState) : jsonU64 job.emit "job_id" = job.jobId := by
  have hkey : KeyAt "job_id" [123] [ascii "ok", ascii ":true,"] := ⟨by decide, by decide, by decide⟩
  rw [jsonU64, emit_pieces]
  exact numberField_pieces _ hkey job.jobId (by decide)

theorem headerHex_emit (h : job.headerHex = bytesToHex header) : jsonStr job.emit "header_hex" = job.headerHex := by
  have hkey : KeyAt "header_hex" [123]
      [ascii "ok", ascii ":true,", ascii "job_id", 58 :: (decimal job.jobId.toNat ++ [44])] := by
    refine ⟨by decide, by decide, ?_⟩
    simp only [List.forall_mem_cons]
    exact ⟨by decide, by decide, by decide, plain_number _ (by decide) (by decide), nofun⟩
  have hquote : 34 ∉ job.headerHex := by
    rw [h]
    exact not_mem_hex header (by decide)
  rw [jsonStr, emit_pieces]
  exact stringField_pieces _ hkey hquote (by simp)

theorem header_emit (h : job.headerHex = bytesToHex header) : hexToBytes (jsonStr job.emit "header_hex") = header := by
  rw [headerHex_emit h, h, hexToBytes, poolHexToBytes_bytesToHex]

theorem shareDifficulty_emit (h : job.headerHex = bytesToHex header) :
    (jsonU64 job.emit "share_difficulty").toUInt32 = job.shareDifficulty := by
  have hother : bytesToHex header ≠ ascii "share_difficulty" := by
    intro he
    apply not_mem_hex header (c := 115) (by decide)
    rw [he]
    decide
  have hkey : KeyAt "share_difficulty" [123] [ascii "ok", ascii ":true,", ascii "job_id",
      58 :: (decimal job.jobId.toNat ++ [44]), ascii "header_hex", [58], job.headerHex, [44]] := by
    refine ⟨by decide, by decide, ?_⟩
    rw [h]
    simp only [List.forall_mem_cons]
    exact ⟨by decide, by decide, by decide, plain_number _ (by decide) (by decide), by decide, by decide,
      ⟨not_mem_hex header (by decide), hother⟩, by decide, nofun⟩
  have hread := numberField_pieces [ascii "block_difficulty", 58 :: (decimal job.blockDifficulty.toNat ++ [44]),
    ascii "height", 58 :: (decimal job.height.toNat ++ [125])] hkey job.shareDifficulty.toUInt64 (c := 44) (by decide)
  rw [UInt32.toNat_toUInt64] at hread
  rw [jsonU64, emit_pieces]
  exact (congrArg UInt64.toUInt32 hread).trans (by simp)

theorem readJob_emit (hid : job.jobId ≠ 0) (hne : header ≠ []) (h : job.headerHex = bytesToHex header) :
    readJob job.emit = some ⟨job.jobId, job.shareDifficulty, header⟩ := by
  have hhex : ¬ (job.jobId = 0 ∨ job.headerHex = []) := by
    rw [h]
    simp [hid, bytesToHex_ne_nil hne]
  simp only [readJob, jobId_emit, headerHex_emit h, shareDifficulty_emit h]
  rw [if_neg hhex, h, hexToBytes, poolHexToBytes_bytesToHex]

end

/-! ## The body of a submission -/

section
variable {address : Bytes}

theorem address_submitBody (hquote : 34 ∉ address) (jobId nonce : UInt64) :
    stringField "address" (submitBody address jobId nonce) = address := by
  have hkey : KeyAt "address" [123] [] := ⟨by decide, by decide, nofun⟩
  rw [submitBody_pieces]
  exact stringField_pieces _ hkey hquote (by simp)

/-- The prefix keeps an address from being taken for a key. -/
theorem address_ne_key (haddress : (ascii "CZ").isPrefixOf address = true) {key : Bytes} (hkey : 67 ∉ key) : address ≠ key := by
  intro h
  obtain ⟨rest, hrest⟩ := List.isPrefixOf_iff_prefix.mp haddress
  apply hkey
  rw [← h, ← hrest]
  simp [ascii]

theorem jobId_submitBody (haddress : (ascii "CZ").isPrefixOf address = true) (hquote : 34 ∉ address) (jobId nonce : UInt64) :
    numberField "job_id" (submitBody address jobId nonce) = jobId := by
  have hkey : KeyAt "job_id" [123] [ascii "address", [58], address, [44]] := by
    refine ⟨by decide, by decide, ?_⟩
    simp only [List.forall_mem_cons]
    exact ⟨by decide, by decide, ⟨hquote, address_ne_key haddress (by decide)⟩, by decide, nofun⟩
  rw [submitBody_pieces]
  exact numberField_pieces _ hkey jobId (by decide)

theorem nonce_submitBody (haddress : (ascii "CZ").isPrefixOf address = true) (hquote : 34 ∉ address) (jobId nonce : UInt64) :
    numberField "nonce" (submitBody address jobId nonce) = nonce := by
  have hkey : KeyAt "nonce" [123]
      [ascii "address", [58], address, [44], ascii "job_id", 58 :: (decimal jobId.toNat ++ [44])] := by
    refine ⟨by decide, by decide, ?_⟩
    simp only [List.forall_mem_cons]
    exact ⟨by decide, by decide, ⟨hquote, address_ne_key haddress (by decide)⟩, by decide, by decide,
      plain_number _ (by decide) (by decide), nofun⟩
  rw [submitBody_pieces]
  exact numberField_pieces _ hkey nonce (by decide)

end

theorem tryNonce_iff {K : Crypto} {job : Job} {nonce : UInt64} :
    tryNonce K address job nonce = some (submitBody address job.jobId nonce) ↔
      powMeetsDifficulty (calculatePowHash K job.headerBytes nonce) job.shareDiff = true := by
  rw [tryNonce]
  split <;> simp_all

end PoolWorker

/-! ## The three together -/

section
variable {K : Crypto} {D : Doubles}

theorem powHeader_ne_nil (block : Block) : block.powHeader ≠ [] := by
  intro h
  have hlen := headerBytes_length { block.header with nonce := 0 }
  rw [← Block.powHeader, h] at hlen
  cases hlen

theorem publish_shareDifficulty (s : PoolServer D) (block : Block) (recipient : Bytes) (h : block.header.difficulty ≠ 0) :
    (s.publish block recipient).currentJob.shareDifficulty ≤ block.header.difficulty := by
  have hpos : block.header.difficulty.toNat ≠ 0 := fun hz => h (UInt32.toNat_inj.mp hz)
  show (if block.header.difficulty > 8 then block.header.difficulty - 8 else 1) ≤ block.header.difficulty
  split
  · rename_i hgt
    have hle : 8 ≤ block.header.difficulty := UInt32.le_of_lt hgt
    rw [UInt32.le_iff_toNat_le, UInt32.toNat_sub_of_le _ _ hle]
    exact Nat.sub_le _ _
  · rw [UInt32.le_iff_toNat_le]
    exact Nat.one_le_iff_ne_zero.mpr hpos

/-- A nonce for the current job, as the worker sends it. -/
theorem beginSubmit_current {s : PoolServer D} {address header : Bytes} (nonce : UInt64)
    (haddress : (ascii "CZ").isPrefixOf address = true) (hquote : 34 ∉ address) (hactive : s.currentJob.active = true)
    (hne : header ≠ []) (hhex : s.currentJob.headerHex = bytesToHex header) (hd : s.currentJob.blockDifficulty ≠ 0) :
    s.beginSubmit K (PoolWorker.submitBody address s.currentJob.jobId nonce) = .ok
      { addr := address, nonce := nonce, jobId := s.currentJob.jobId
        solved := { s.currentJob.candidate with header := { s.currentJob.candidate.header with nonce := nonce } }
        creditedCandidate := powMeetsDifficulty (calculatePowHash K header nonce) s.currentJob.shareDifficulty
        isBlock := powMeetsDifficulty (calculatePowHash K header nonce) s.currentJob.blockDifficulty } := by
  have hempty : address ≠ [] := by
    rintro rfl
    cases haddress
  simp only [PoolServer.beginSubmit, PoolWorker.address_submitBody hquote, PoolWorker.jobId_submitBody haddress hquote,
    PoolWorker.nonce_submitBody haddress hquote]
  simp [hempty, haddress, hactive, hd, hhex, bytesToHex_ne_nil hne, poolHexToBytes_bytesToHex]

theorem assembled_difficulty {chain : List Block} {recipient : Bytes} {now : UInt64} {mempool : Mempool K} {block : Block}
    (hchain : validateCandidateChain K chain = .ok true)
    (h : Node.assembleCandidate chain recipient now mempool = .ok block) : block.header.difficulty ≠ 0 := by
  obtain ⟨u, t, hr⟩ := candidate_iff.mp hchain
  have hlo := hr.nextDifficulty.1
  rw [← (assembleCandidate_header h).2] at hlo
  intro hzero
  rw [hzero] at hlo
  exact absurd hlo (by decide)

/-- What the worker reads from a job and what the server reads from its answer is what the other side printed, and both
hash what the node hashes. A candidate for an accepted chain has a difficulty, so that the server judges every nonce. -/
theorem worker_server_node_agree (K : Crypto) (s : PoolServer D) (block : Block) (recipient address : Bytes) (nonce : UInt64)
    (haddress : (ascii "CZ").isPrefixOf address = true) (hquote : 34 ∉ address) :
    let server := s.publish block recipient
    let job := server.currentJob
    let body := PoolWorker.submitBody address job.jobId nonce
    let solved : Block := { block with header := { block.header with nonce := nonce } }
    (PoolWorker.jsonU64 job.emit "job_id" = job.jobId ∧
      (PoolWorker.jsonU64 job.emit "share_difficulty").toUInt32 = job.shareDifficulty ∧
      PoolWorker.hexToBytes (PoolWorker.jsonStr job.emit "header_hex") = block.powHeader) ∧
    (stringField "address" body = address ∧ numberField "job_id" body = job.jobId ∧ numberField "nonce" body = nonce) ∧
    calculatePowHash K (poolHexToBytes job.headerHex) nonce = solved.powHash K ∧
    (block.header.difficulty ≠ 0 → ∃ sub, server.beginSubmit K body = .ok sub ∧
      sub.addr = address ∧ sub.jobId = job.jobId ∧ sub.nonce = nonce ∧ sub.solved = solved ∧
      (sub.isBlock = true ↔ solved.validatePow K = true) ∧ (sub.isBlock = true → sub.creditedCandidate = true) ∧
      (job.jobId ≠ 0 → ∃ held, PoolWorker.readJob job.emit = some held ∧
        (PoolWorker.tryNonce K address held nonce = some body ↔ sub.creditedCandidate = true))) ∧
    ∀ (chain : List Block) (recipient : Bytes) (now : UInt64) (mempool : Mempool K),
      validateCandidateChain K chain = .ok true → Node.assembleCandidate chain recipient now mempool = .ok block →
      block.header.difficulty ≠ 0 := by
  intro server job body solved
  have hhex : job.headerHex = bytesToHex block.powHeader := rfl
  refine ⟨⟨PoolWorker.jobId_emit job, PoolWorker.shareDifficulty_emit hhex, PoolWorker.header_emit hhex⟩,
    ⟨PoolWorker.address_submitBody hquote _ _, PoolWorker.jobId_submitBody haddress hquote _ _,
      PoolWorker.nonce_submitBody haddress hquote _ _⟩, ?_, ?_, fun _ _ _ _ => assembled_difficulty⟩
  · rw [hhex, poolHexToBytes_bytesToHex]
    rfl
  · intro hd
    have hbegin : server.beginSubmit K body = _ :=
      beginSubmit_current nonce haddress hquote rfl (powHeader_ne_nil block) hhex hd
    refine ⟨_, hbegin, rfl, rfl, rfl, rfl, Iff.rfl, ?_, ?_⟩
    · exact powMeetsDifficulty_mono (publish_shareDifficulty s block recipient hd)
    · intro hid
      exact ⟨_, PoolWorker.readJob_emit hid (powHeader_ne_nil block) hhex, PoolWorker.tryNonce_iff⟩

end

def servingPool : PoolServer toyDoubles := PoolWorld.genesisPool.server.publish toyFirst toyAddress

theorem worker_server_node_agree_toy : toyFirst.header.difficulty ≠ 0 ∧
    ∃ sub, servingPool.beginSubmit toyCrypto
      (PoolWorker.submitBody (ascii "CZ\\a") servingPool.currentJob.jobId 7) = .ok sub ∧ sub.nonce = 7 := by
  have hd : toyFirst.header.difficulty ≠ 0 := by decide +kernel
  obtain ⟨-, -, -, hsubmit, -⟩ := worker_server_node_agree toyCrypto PoolWorld.genesisPool.server toyFirst toyAddress
    (ascii "CZ\\a") 7 (by decide) (by decide)
  obtain ⟨sub, hbegin, -, -, hnonce, -⟩ := hsubmit hd
  exact ⟨hd, sub, hbegin, hnonce⟩

end Caesar
