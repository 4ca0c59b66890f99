import Caesar.NodeSound
import Caesar.Storage

/-!
# Saving and loading the file

The file of a chain is `fileBytes`. `save` writes it and `load` accepts nothing
else (`fileLoad_ok`), so the cell of `BlockchainStorage` is what the file holds
(`save_cell`, `load_cell`). The writer has fewer limits than the reader, so some
chains can be saved and not loaded.
-/

namespace Caesar

open Codec

/-! ## The decoder's limits -/

theorem Transaction.withinLimits_iff {tx : Transaction} : tx.WithinLimits ↔ tx.FitsBlock decodeLimit := by
  refine ⟨Transaction.WithinLimits.fitsBlock, ?_⟩
  intro h
  have hser := serializeFullBinary_ok.mpr ⟨h.1.mono decodeLimit_le, rfl⟩
  exact ⟨h.1.coinbaseData, h.1.inputs, h.1.outputs, h.1.witness, h.1.signatures, tx.fullBytes, hser, h.2⟩

theorem Block.withinLimits_iff {block : Block} : block.WithinLimits ↔ block.Fits decodeLimit := by
  refine ⟨Block.WithinLimits.fits, ?_⟩
  intro h
  exact ⟨h.count, fun tx htx => Transaction.withinLimits_iff.mpr (h.transactions tx htx)⟩

/-! ## Parts of the file -/

theorem readPart_ok {n : Nat} {what : String} {s b rest : Bytes} :
    readPart n what s = .ok (b, rest) ↔ b.length = n ∧ s = b ++ rest := by
  rw [← readRaw_ok, readPart, readRaw, ite_error_ok, ite_error_ok]

theorem readFileU32_ok {s rest : Bytes} {v : UInt32} : readFileU32 s = .ok (v, rest) ↔ s = writeU32 v ++ rest := by
  rw [← readU32_ok]
  simp only [readFileU32, readU32, andThen_ok, readPart_ok, readRaw_ok]

theorem readFileU64_ok {s rest : Bytes} {v : UInt64} : readFileU64 s = .ok (v, rest) ↔ s = writeU64 v ++ rest := by
  rw [← readU64_ok]
  simp only [readFileU64, readU64, andThen_ok, readPart_ok, readRaw_ok]

theorem toNat_size {n : Nat} (h : n ≤ maxBlockBytes) : (UInt32.ofNat n).toNat = n := by
  rw [UInt32.toNat_ofNat']
  unfold maxBlockBytes at h
  omega

section
variable {K : Crypto}

open StorageFile

theorem fileReadBlock_exact : Exact (StorageFile.readBlock K) Block.Stored fun block => record K block.bytes := by
  intro s block rest
  simp only [StorageFile.readBlock, andThen_ok, readFileU32_ok, record, Block.Stored]
  refine ⟨?_, ?_⟩
  · intro h
    obtain ⟨size, _, rfl, h⟩ := h
    by_cases hsize : size.toNat = 0 ∨ size.toNat > maxBlockBytes
    · simp [hsize] at h
    · rw [if_neg hsize] at h
      simp only [andThen_ok, readPart_ok, ite_error_ok] at h
      obtain ⟨data, _, ⟨hlen, rfl⟩, checksum, t, ⟨-, rfl⟩, hsum, h⟩ := h
      cases hd : Block.deserializeFull data with
      | error e => simp [hd] at h
      | ok found =>
        simp only [hd, Except.ok.injEq, Prod.mk.injEq] at h
        obtain ⟨rfl, rfl⟩ := h
        obtain ⟨hf, rfl⟩ := blockDeserialize_ok.mp hd
        refine ⟨⟨hf, by omega⟩, ?_⟩
        rw [not_not.mp hsum, writeSize, hlen, UInt32.ofNat_toNat]
        simp only [List.append_assoc]
  · intro h
    obtain ⟨⟨hf, hlen⟩, rfl⟩ := h
    have hpos := blockBytes_pos block
    have hsize := toNat_size hlen
    refine ⟨UInt32.ofNat block.bytes.length, block.bytes ++ ((K.sha256 block.bytes).1 ++ rest), ?_, ?_⟩
    · simp only [writeSize, List.append_assoc]
    · rw [hsize, if_neg (by omega)]
      simp only [andThen_ok, readPart_ok, ite_error_ok]
      refine ⟨block.bytes, _, ⟨rfl, rfl⟩, (K.sha256 block.bytes).1, rest, ⟨(K.sha256 block.bytes).2, rfl⟩, by simp, ?_⟩
      rw [blockDeserialize_ok.mpr ⟨hf, rfl⟩]

/-! ## The file of a chain -/

def fileBytes (K : Crypto) (chain : List Block) : Bytes :=
  writeU32 storageMagic ++ (writeU32 storageFormatVersion ++ (writeU64 (UInt64.ofNat chain.length) ++
    chain.flatMap fun block => record K block.bytes))

theorem writeRecord_ok (block : Block) (b : Bytes) : writeRecord K block = .ok b ↔
    (block.Fits uint32Max ∧ block.bytes.length ≤ maxBlockBytes) ∧ b = record K block.bytes := by
  simp only [writeRecord, bind_ok, writeBlock_ok, pure_ok]
  refine ⟨?_, ?_⟩
  · intro h
    obtain ⟨_, ⟨hf, rfl⟩, rfl⟩ := h
    exact ⟨hf, rfl⟩
  · intro h
    obtain ⟨hf, rfl⟩ := h
    exact ⟨_, ⟨hf, rfl⟩, rfl⟩

theorem fileSave_ok {chain : List Block} {file : Bytes} : StorageFile.save K chain = .ok file ↔
    validateCandidateChain K chain = .ok true ∧
      (∀ block ∈ chain, block.Fits uint32Max ∧ block.bytes.length ≤ maxBlockBytes) ∧ file = fileBytes K chain := by
  simp only [StorageFile.save, ite_error_ok, bind_ok, mapM_ok writeRecord_ok, Bool.not_eq_true', Bool.not_eq_false,
    pure_ok, fileBytes, List.flatMap_def]
  refine ⟨?_, ?_⟩
  · intro h
    obtain ⟨-, valid, hv, rfl, _, ⟨hs, rfl⟩, rfl⟩ := h
    exact ⟨hv, hs, rfl⟩
  · intro h
    obtain ⟨hv, hs, rfl⟩ := h
    obtain ⟨u, t, hr⟩ := candidate_iff.mp hv
    exact ⟨by simp [hr.ne_nil], true, hv, rfl, _, ⟨hs, rfl⟩, rfl⟩

theorem fileLoad_ok {file : Bytes} {chain : List Block} :
    StorageFile.load K (some file) = .ok chain ↔ Loadable K chain ∧ file = fileBytes K chain := by
  simp only [StorageFile.load, bind_ok, Prod.exists, readFileU32_ok, readFileU64_ok, ite_error_ok,
    readMany_ok fileReadBlock_exact, Bool.not_eq_true', Bool.not_eq_false, pure_ok, List.isEmpty_iff, not_not, fileBytes]
  refine ⟨?_, ?_⟩
  · intro h
    obtain ⟨magic, _, rfl, version, _, rfl, count, _, rfl, rfl, rfl, hcount, found, rest, ⟨hlen, hstored, rfl⟩, rfl,
      valid, hv, rfl, rfl⟩ := h
    refine ⟨⟨by omega, hstored, hv⟩, ?_⟩
    rw [hlen, UInt64.ofNat_toNat, List.append_nil]
  · intro h
    obtain ⟨⟨hcount, hstored, hv⟩, rfl⟩ := h
    obtain ⟨u, t, hr⟩ := candidate_iff.mp hv
    have hpos := List.length_pos_of_ne_nil hr.ne_nil
    have hlen : (UInt64.ofNat chain.length).toNat = chain.length := by
      rw [UInt64.toNat_ofNat']
      unfold maxBlocks at hcount
      omega
    refine ⟨_, _, rfl, _, _, rfl, _, _, rfl, rfl, rfl, by omega, chain, [], ⟨hlen.symm, hstored, ?_⟩, rfl, true, hv, rfl, rfl⟩
    rw [List.append_nil]

/-! ## The cell is what the file holds -/

theorem mapM_map {α β γ : Type} (f : α → Result β) (g : β → γ) (l : List α) :
    l.mapM (fun a => f a >>= fun b => pure (g b)) = (l.mapM f).map (List.map g) := by
  induction l with
  | nil => rfl
  | cons a l ih =>
    rw [List.mapM_cons, List.mapM_cons, ih]
    cases f a with
    | error e => rfl
    | ok b =>
      cases l.mapM f with
      | error e => rfl
      | ok bs => rfl

theorem save_cell (chain : List Block) :
    BlockchainStorage.save K chain = (StorageFile.save K chain).map fun _ => some chain := by
  unfold BlockchainStorage.save StorageFile.save
  by_cases hne : chain.isEmpty
  · rw [if_pos hne, if_pos hne]
    rfl
  · rw [if_neg hne, if_neg hne]
    cases validateCandidateChain K chain with
    | error e => rfl
    | ok valid =>
      cases valid with
      | false => rfl
      | true =>
        have hmap : chain.mapM (writeRecord K) = (chain.mapM writeBlock).map (List.map (record K)) := mapM_map _ _ _
        simp only [bind, Except.bind, Bool.not_true, Bool.false_eq_true, ite_false, hmap]
        cases chain.mapM writeBlock with
        | error e => rfl
        | ok records => rfl

theorem fileReadBlock_record {block : Block} (hf : block.Fits uint32Max) (hlen : block.bytes.length ≤ maxBlockBytes)
    (rest : Bytes) :
    StorageFile.readBlock K (record K block.bytes ++ rest) = (readStoredBlock block).map fun b => (b, rest) := by
  have hpos := blockBytes_pos block
  have hu : readFileU32 (record K block.bytes ++ rest) =
      .ok (UInt32.ofNat block.bytes.length, block.bytes ++ ((K.sha256 block.bytes).1 ++ rest)) :=
    readFileU32_ok.mpr (by simp [record, writeSize])
  have hdata : readPart block.bytes.length "truncated stored block" (block.bytes ++ ((K.sha256 block.bytes).1 ++ rest)) =
      .ok (block.bytes, (K.sha256 block.bytes).1 ++ rest) := readPart_ok.mpr ⟨rfl, rfl⟩
  have hsum : readPart 32 "truncated stored block checksum" ((K.sha256 block.bytes).1 ++ rest) =
      .ok ((K.sha256 block.bytes).1, rest) := readPart_ok.mpr ⟨(K.sha256 block.bytes).2, rfl⟩
  have hbytes : block.serializeFullBinary = .ok block.bytes := blockSerialize_ok.mpr ⟨hf, rfl⟩
  have hsize : ¬ (block.bytes.length = 0 ∨ block.bytes.length > maxBlockBytes) := by omega
  simp only [StorageFile.readBlock, Reader.andThen, hu, toNat_size hlen, if_neg hsize, hdata, hsum, readStoredBlock,
    hbytes, bind, Except.bind]
  cases Block.deserializeFull block.bytes with
  | error e => simp [Except.map]
  | ok b => simp [Except.map]

theorem readMany_records : ∀ {chain : List Block},
    (∀ block ∈ chain, block.Fits uint32Max ∧ block.bytes.length ≤ maxBlockBytes) →
      readMany (StorageFile.readBlock K) chain.length (chain.flatMap fun block => record K block.bytes) =
        (chain.mapM readStoredBlock).map fun blocks => (blocks, [])
  | [], _ => rfl
  | block :: rest, h => by
    have hb := h block List.mem_cons_self
    have ih := readMany_records fun b hb => h b (List.mem_cons_of_mem block hb)
    rw [List.length_cons, List.flatMap_cons, readMany, List.mapM_cons]
    simp only [Reader.andThen, fileReadBlock_record hb.1 hb.2]
    cases readStoredBlock block with
    | error e => rfl
    | ok found =>
      simp only [Except.map, ih, bind, Except.bind]
      cases rest.mapM readStoredBlock with
      | error e => rfl
      | ok blocks => rfl

theorem load_cell {chain : List Block} {file : Bytes} (h : StorageFile.save K chain = .ok file) :
    StorageFile.load K (some file) = BlockchainStorage.load K (some chain) := by
  obtain ⟨hv, hs, rfl⟩ := fileSave_ok.mp h
  obtain ⟨u, t, hr⟩ := candidate_iff.mp hv
  have hpos := List.length_pos_of_ne_nil hr.ne_nil
  have hle := hr.length_le
  have hmagic : ∀ rest, readFileU32 (writeU32 storageMagic ++ rest) = .ok (storageMagic, rest) :=
    fun _ => readFileU32_ok.mpr rfl
  have hversion : ∀ rest, readFileU32 (writeU32 storageFormatVersion ++ rest) = .ok (storageFormatVersion, rest) :=
    fun _ => readFileU32_ok.mpr rfl
  have hcount : ∀ rest, readFileU64 (writeU64 (UInt64.ofNat chain.length) ++ rest) =
      .ok (UInt64.ofNat chain.length, rest) := fun _ => readFileU64_ok.mpr rfl
  -- a chain of 2 ^ 64 blocks would have the count 0, and is refused by both
  have hguard : ((UInt64.ofNat chain.length).toNat = 0 ∨ (UInt64.ofNat chain.length).toNat > maxBlocks) ↔
      (chain.length = 0 ∨ chain.length > maxBlocks) := by
    rw [UInt64.toNat_ofNat']
    unfold maxBlocks
    omega
  simp only [StorageFile.load, fileBytes, hmagic, hversion, hcount, bind, Except.bind, ne_eq, not_true_eq_false, ite_false,
    hguard, BlockchainStorage.load]
  by_cases hmany : chain.length = 0 ∨ chain.length > maxBlocks
  · rw [if_pos hmany, if_pos hmany]
  · have hlen : (UInt64.ofNat chain.length).toNat = chain.length := by
      rw [UInt64.toNat_ofNat']
      unfold maxBlocks at hmany
      omega
    rw [if_neg hmany, if_neg hmany, hlen, readMany_records hs]
    cases chain.mapM readStoredBlock with
    | error e => rfl
    | ok blocks => simp [Except.map]

/-! ## What is saved is loaded -/

theorem saved_loadable_iff {chain : List Block} {file : Bytes} (h : StorageFile.save K chain = .ok file) :
    Loadable K chain ↔ chain.length ≤ maxBlocks ∧ ∀ block ∈ chain, block.WithinLimits := by
  obtain ⟨hv, hs, -⟩ := fileSave_ok.mp h
  constructor
  · intro hl
    exact ⟨hl.count, fun block hb => Block.withinLimits_iff.mpr (hl.stored block hb).1⟩
  · intro hl
    exact ⟨hl.1, fun block hb => ⟨Block.withinLimits_iff.mp (hl.2 block hb), (hs block hb).2⟩, hv⟩

/-- A saved chain is loaded again exactly when it is within the limits of the reader. -/
theorem saved_loads_iff {chain : List Block} {file : Bytes} (h : StorageFile.save K chain = .ok file) :
    StorageFile.load K (some file) = .ok chain ↔ chain.length ≤ maxBlocks ∧ ∀ block ∈ chain, block.WithinLimits := by
  obtain ⟨-, -, hfile⟩ := fileSave_ok.mp h
  rw [fileLoad_ok, ← saved_loadable_iff h]
  exact and_iff_left hfile

/-- `load` accepts the file that `save` writes of the chain it returns, and no other. -/
theorem loaded_file_canonical {file : Bytes} {chain : List Block} (h : StorageFile.load K (some file) = .ok chain) :
    StorageFile.save K chain = .ok file ∧ validateCandidateChain K chain = .ok true ∧
      ∀ other, other ≠ file → (∃ e, StorageFile.load K (some other) = .error e) ∨
        ∃ chain', chain' ≠ chain ∧ StorageFile.load K (some other) = .ok chain' ∧
          StorageFile.save K chain' = .ok other ∧ validateCandidateChain K chain' = .ok true := by
  have hsave : ∀ {file' : Bytes} {chain' : List Block}, StorageFile.load K (some file') = .ok chain' →
      StorageFile.save K chain' = .ok file' ∧ validateCandidateChain K chain' = .ok true := by
    intro file' chain' h'
    obtain ⟨hl, rfl⟩ := fileLoad_ok.mp h'
    have hs : ∀ block ∈ chain', block.Fits uint32Max ∧ block.bytes.length ≤ maxBlockBytes :=
      fun block hb => ⟨(hl.stored block hb).1.mono decodeLimit_le, (hl.stored block hb).2⟩
    exact ⟨fileSave_ok.mpr ⟨hl.valid, hs, rfl⟩, hl.valid⟩
  refine ⟨(hsave h).1, (hsave h).2, ?_⟩
  intro other hne
  cases hother : StorageFile.load K (some other) with
  | error e => exact Or.inl ⟨e, rfl⟩
  | ok chain' =>
    refine Or.inr ⟨chain', ?_, rfl, hsave hother⟩
    intro he
    subst he
    have hsame := (hsave hother).1
    rw [(hsave h).1, Except.ok.injEq] at hsame
    exact hne hsame.symm

/-! ## A genesis block with any recipient -/

def genesisTransaction (recipient : Bytes) : Transaction := ⟨1, [], [], [⟨1, recipient⟩], []⟩

/-- The block that `build_canonical_genesis` makes for `recipient`. -/
def genesisFor (K : Crypto) (recipient : Bytes) : Block where
  header :=
    { version := 1, height := 0, previousHash := Hash256.zero
      merkleRoot := merkleRoot K [(genesisTransaction recipient).id K]
      witnessRoot := merkleRoot K [(genesisTransaction recipient).wid K]
      timestamp := 0, nonce := 0, difficulty := 0 }
  transactions := [genesisTransaction recipient]

theorem genesis_fits {recipient : Bytes} (h : recipient.length ≤ uint32Max) :
    (genesisTransaction recipient).Fits uint32Max :=
  ⟨⟨by simp [genesisTransaction], by simp [genesisTransaction], by simp [genesisTransaction, uint32Max],
    by simpa [genesisTransaction] using h⟩, by simp [genesisTransaction], by simp [genesisTransaction],
    by simp [genesisTransaction]⟩

theorem genesis_length (recipient : Bytes) : (genesisTransaction recipient).fullBytes.length = 32 + recipient.length := by
  simp [genesisTransaction, Transaction.fullBytes, Transaction.bytes, stringBytes, output_bytes_length]
  omega

theorem genesis_ids {recipient : Bytes} (h : recipient.length ≤ uint32Max) :
    (genesisTransaction recipient).txid K = .ok ((genesisTransaction recipient).id K) ∧
      (genesisTransaction recipient).wtxid K = .ok ((genesisTransaction recipient).wid K) :=
  ⟨(txid_ok K _ _).mpr ⟨(genesis_fits h).toBaseFits, rfl⟩, (wtxid_ok K _ _).mpr ⟨genesis_fits h, rfl⟩⟩

theorem buildCanonicalGenesis_eq {recipient : Bytes} (h : recipient.length ≤ uint32Max) :
    buildCanonicalGenesis K recipient = .ok (genesisFor K recipient) := by
  obtain ⟨hid, hwid⟩ := genesis_ids (K := K) h
  rw [genesisTransaction] at hid hwid
  simp [buildCanonicalGenesis, Block.updateMerkleRoot, Block.calculateMerkleRoot, Block.calculateWitnessRoot, hid, hwid,
    bind, Except.bind, pure, Except.pure, genesisFor, genesisTransaction]

theorem genesisFor_valid {recipient : Bytes} (hne : recipient ≠ []) (h : recipient.length ≤ uint32Max) :
    validateGenesisCanonical K (genesisFor K recipient) = .ok true := by
  obtain ⟨hid, hwid⟩ := genesis_ids (K := K) h
  -- every hash meets the difficulty 0
  have hpow : (genesisFor K recipient).validatePow K = true := by
    simp [Block.validatePow, validatePow, powMeetsDifficulty, genesisFor]
  have hroots : (genesisFor K recipient).validateRoots K = .ok true := by
    simp [Block.validateRoots, Block.validateMerkleRoot, Block.validateWitnessRoot, Block.calculateMerkleRoot,
      Block.calculateWitnessRoot, hid, hwid, bind, Except.bind, pure, Except.pure, genesisFor]
  have hzero : isZeroHash Hash256.zero = true := by decide
  simp only [validateGenesisCanonical, Block.validateBasic, hpow, hroots]
  simp [genesisFor, genesisTransaction, validateGenesisTransaction, isCoinbaseTransaction, hzero, hne]

theorem genesisFor_length (recipient : Bytes) : (genesisFor K recipient).bytes.length = 168 + recipient.length := by
  simp [Block.bytes, genesisFor, stringBytes, genesis_length]
  omega

theorem genesisFor_saved {recipient : Bytes} (hne : recipient ≠ []) (h : recipient.length ≤ 2000000) :
    StorageFile.save K [genesisFor K recipient] = .ok (fileBytes K [genesisFor K recipient]) := by
  have hle : recipient.length ≤ uint32Max := by unfold uint32Max; omega
  refine fileSave_ok.mpr ⟨candidate_iff.mpr ⟨_, _, .genesis (genesisFor_valid hne hle)⟩, ?_, rfl⟩
  intro block hb
  rw [List.mem_singleton.mp hb]
  refine ⟨⟨by simp [genesisFor, uint32Max], fun tx htx => ?_⟩, ?_⟩
  · rw [List.mem_singleton.mp htx]
    exact ⟨genesis_fits hle, by rw [genesis_length]; unfold uint32Max; omega⟩
  · rw [genesisFor_length, maxBlockBytes]
    omega

theorem genesisFor_loadable {recipient : Bytes} (hne : recipient ≠ []) (h : recipient.length ≤ 900000) :
    Loadable K [genesisFor K recipient] := by
  have hle : recipient.length ≤ uint32Max := by unfold uint32Max; omega
  refine ⟨by simp [maxBlocks], ?_, candidate_iff.mpr ⟨_, _, .genesis (genesisFor_valid hne hle)⟩⟩
  intro block hb
  rw [List.mem_singleton.mp hb]
  refine ⟨⟨by simp [genesisFor, decodeLimit], fun tx htx => ?_⟩, ?_⟩
  · rw [List.mem_singleton.mp htx]
    refine ⟨⟨⟨by simp [genesisTransaction], by simp [genesisTransaction], by simp [genesisTransaction, decodeLimit], ?_⟩,
      by simp [genesisTransaction], by simp [genesisTransaction], by simp [genesisTransaction]⟩, ?_⟩
    · simpa [genesisTransaction] using hle
    · rw [genesis_length, decodeLimit]
      omega
  · rw [genesisFor_length, maxBlockBytes]
    omega

end

theorem saved_loads_toy : StorageFile.save toyCrypto [genesisFor toyCrypto genesisBurnRecipient] =
      .ok (fileBytes toyCrypto [genesisFor toyCrypto genesisBurnRecipient]) ∧
    StorageFile.load toyCrypto (some (fileBytes toyCrypto [genesisFor toyCrypto genesisBurnRecipient])) =
      .ok [genesisFor toyCrypto genesisBurnRecipient] := by
  have hne : genesisBurnRecipient ≠ [] := by decide
  have hsave := genesisFor_saved (K := toyCrypto) hne (by decide)
  refine ⟨hsave, (saved_loads_iff hsave).mpr ⟨by simp [maxBlocks], fun block hb => ?_⟩⟩
  rw [List.mem_singleton.mp hb, Block.withinLimits_iff]
  refine ⟨by simp [genesisFor, decodeLimit], fun tx htx => ?_⟩
  rw [List.mem_singleton.mp htx]
  exact ⟨⟨⟨by decide, by decide, by decide, by decide⟩, by decide, by decide, by decide⟩, by decide⟩

/-- With a recipient of a million bytes the first transaction is over the reader's limit, but not over the writer's. -/
theorem long_recipient_unreadable : ¬ ∀ (chain : List Block) (file : Bytes),
    StorageFile.save toyCrypto chain = .ok file → StorageFile.load toyCrypto (some file) = .ok chain := by
  intro hall
  have hlen : (List.replicate 1000000 (7 : UInt8)).length = 1000000 := List.length_replicate
  have hne : List.replicate 1000000 (7 : UInt8) ≠ [] := List.ne_nil_of_length_pos (by omega)
  have hsave := genesisFor_saved (K := toyCrypto) hne (by omega)
  have hloaded := (fileLoad_ok.mp (hall _ _ hsave)).1
  have hfull := ((hloaded.stored _ List.mem_cons_self).1.transactions _ List.mem_cons_self).2
  rw [genesis_length, hlen, decodeLimit] at hfull
  omega

theorem loaded_file_canonical_toy :
    StorageFile.load toyCrypto (some (fileBytes toyCrypto [toyGenesis, toyFirst])) = .ok [toyGenesis, toyFirst] ∧
      StorageFile.save toyCrypto [toyGenesis, toyFirst] = .ok (fileBytes toyCrypto [toyGenesis, toyFirst]) := by
  have hload : StorageFile.load toyCrypto (some (fileBytes toyCrypto [toyGenesis, toyFirst])) =
      .ok [toyGenesis, toyFirst] := by decide +kernel
  exact ⟨hload, (loaded_file_canonical hload).1⟩

end Caesar
