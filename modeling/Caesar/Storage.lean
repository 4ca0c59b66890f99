import Caesar.Node

/-!
# The storage file, byte by byte

`BlockchainStorage` keeps the chain in a cell. Here is the file behind the cell:
a magic number, a version, the number of blocks, and for each block its size,
its bytes and their SHA-256. File operations succeed.
-/

namespace Caesar

open Codec

def storageMagic : UInt32 := 0x435a5231

def storageFormatVersion : UInt32 := 1

/-! ## Reading from the file -/

def readPart (n : Nat) (what : String) : Reader Error Bytes := fun s =>
  if n > s.length then fail what else .ok (s.take n, s.drop n)

def readFileU32 : Reader Error UInt32 := (readPart 4 "unexpected end of blockchain storage").andThen fun b s =>
  .ok (UInt32.ofNat (leNat b), s)

def readFileU64 : Reader Error UInt64 := (readPart 8 "unexpected end of blockchain storage").andThen fun b s =>
  .ok (UInt64.ofNat (leNat b), s)

namespace StorageFile

section
variable (K : Crypto)

def record (data : Bytes) : Bytes := writeSize data.length ++ (data ++ (K.sha256 data).1)

def writeRecord (block : Block) : Result Bytes := do
  let data ← writeBlock block
  pure (record K data)

def save (chain : List Block) : Result Bytes :=
  if chain.isEmpty then fail "cannot save empty blockchain"
  else do
    let valid ← validateCandidateChain K chain
    if !valid then fail "refusing to save invalid blockchain"
    else do
      let records ← chain.mapM (writeRecord K)
      pure (writeU32 storageMagic ++ (writeU32 storageFormatVersion ++
        (writeU64 (UInt64.ofNat chain.length) ++ records.flatten)))

def readBlock : Reader Error Block := readFileU32.andThen fun size =>
  if size.toNat = 0 ∨ size.toNat > maxBlockBytes then fun _ => fail "invalid stored block size"
  else (readPart size.toNat "truncated stored block").andThen fun data =>
    (readPart 32 "truncated stored block checksum").andThen fun checksum s =>
      if checksum ≠ (K.sha256 data).1 then fail "stored block checksum mismatch"
      else match Block.deserializeFull data with
        | .ok block => .ok (block, s)
        | .error e => .error e

def load (file : Option Bytes) : Result (List Block) :=
  match file with
  | none => fail "failed to open blockchain storage"
  | some content => do
    let (magic, content) ← readFileU32 content
    let (version, content) ← readFileU32 content
    let (count, content) ← readFileU64 content
    if magic ≠ storageMagic then fail "invalid blockchain storage magic"
    else if version ≠ storageFormatVersion then fail "unsupported blockchain storage version"
    else if count.toNat = 0 ∨ count.toNat > maxBlocks then fail "invalid blockchain block count"
    else do
      let (chain, rest) ← readMany (readBlock K) count.toNat content
      if !rest.isEmpty then fail "trailing bytes after blockchain storage"
      else do
        let valid ← validateCandidateChain K chain
        if !valid then fail "stored blockchain failed canonical validation" else pure chain

end

end StorageFile

end Caesar
