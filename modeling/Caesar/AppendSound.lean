import Caesar.Append
import Caesar.BuildSound
import Caesar.StorageSound

/-!
# What append accepts

Whatever its own checks are, `append` ends in `save`, which validates the longer
chain; a block of a valid longer chain passes both sets of checks. The canonical
file changes with the rename only.
-/

namespace Caesar

open Codec Script

section
variable {K : Crypto}

/-! ## Writing the file -/

theorem perform_records (canonical : Option Bytes) : ∀ {chain : List Block} (written : Bytes),
    (∀ block ∈ chain, block.Fits uint32Max ∧ block.bytes.length ≤ maxBlockBytes) →
    perform storageOps none (chain.flatMap (writeBlockOps K)) ⟨canonical, some written⟩ =
      (none, ⟨canonical, some (written ++ chain.flatMap fun block => StorageFile.record K block.bytes)⟩)
  | [], written, _ => by simp [perform]
  | block :: chain, written, h => by
    rw [List.forall_mem_cons] at h
    have hstep : perform storageOps none (writeBlockOps K block) ⟨canonical, some written⟩ =
        (none, ⟨canonical, some (written ++ StorageFile.record K block.bytes)⟩) := by
      rw [writeBlockOps, (writeBlock_ok block _).mpr ⟨h.1, rfl⟩, StorageFile.record, ← List.append_assoc]
      rfl
    rw [List.flatMap_cons, perform_append, hstep]
    dsimp only
    rw [show after _ none = none from rfl, perform_records canonical _ h.2, List.flatMap_cons, List.append_assoc]

theorem perform_writeTemp {chain : List Block} (disk : StorageDisk)
    (h : ∀ block ∈ chain, block.Fits uint32Max ∧ block.bytes.length ≤ maxBlockBytes) :
    perform storageOps none (writeTempOps K chain) disk = (none, ⟨disk.canonical, some (fileBytes K chain)⟩) := by
  have hhead : perform storageOps none [.openTemp, .write (writeU32 storageMagic) "failed writing uint32",
      .write (writeU32 storageFormatVersion) "failed writing uint32",
      .write (writeU64 (UInt64.ofNat chain.length)) "failed writing uint64"] disk =
      (none, ⟨disk.canonical, some (writeU32 storageMagic ++ writeU32 storageFormatVersion ++
        writeU64 (UInt64.ofNat chain.length))⟩) := by
    rfl
  rw [writeTempOps, perform_append, hhead]
  dsimp only
  rw [perform_append, show after _ none = none from rfl, perform_records _ _ h, fileBytes]
  simp only [List.append_assoc]
  rfl

theorem act_canonical {op : SaveOp} {d d' : StorageDisk} (hop : op ≠ .rename) (h : op.act d = some d') :
    d'.canonical = d.canonical := by
  cases op with
  | rename => exact absurd rfl hop
  | refuse what => cases h
  | openToSync =>
    simp only [SaveOp.act] at h
    split at h
    · cases h
      rfl
    · cases h
  | _ =>
    cases h
    rfl

theorem spoil_canonical (done : Nat) (op : SaveOp) (d : StorageDisk) : (op.spoil done d).canonical = d.canonical := by
  cases op <;> rfl

theorem cleanup_canonical (op : SaveOp) (d : StorageDisk) : (op.cleanup d).canonical = d.canonical := by
  cases op <;> rfl

theorem writeTemp_no_rename {chain : List Block} : SaveOp.rename ∉ writeTempOps K chain := by
  intro h
  simp only [writeTempOps, writeBlockOps, List.mem_append, List.mem_cons, List.mem_flatMap, List.not_mem_nil, or_false,
    reduceCtorEq, false_or] at h
  obtain ⟨block, -, h⟩ := h
  split at h <;> simp at h

/-- Before the rename nothing is done to the canonical file. -/
theorem writeTemp_canonical (fault : Option Fault) (chain : List Block) (disk : StorageDisk) :
    (perform storageOps fault (writeTempOps K chain) disk).2.canonical = disk.canonical := by
  refine @perform_keeps _ _ storageOps (fun d => d.canonical = disk.canonical) _ ?_ fault _ rfl
  intro op hop d hd
  have hne : op ≠ .rename := fun he => writeTemp_no_rename (he ▸ hop)
  refine ⟨?_, ?_, ?_⟩
  · intro d' hact
    exact (act_canonical hne hact).trans hd
  · intro done
    exact (spoil_canonical done op d).trans hd
  · exact (cleanup_canonical op d).trans hd

/-- A script that stops at the rename, or before, has left the canonical file as it was. -/
theorem rename_canonical {fault : Option Fault} {disk : StorageDisk} {halt : Halt} (hf : ∀ f ∈ fault, f.position = 0)
    (h : (perform storageOps fault [.rename, .fsyncParentDir] disk).1 = some halt) :
    (perform storageOps fault [.rename, .fsyncParentDir] disk).2.canonical = disk.canonical := by
  cases fault with
  | none =>
    cases ht : disk.temp with
    | none => simp [perform, storageOps, SaveOp.act, SaveOp.error, SaveOp.cleanup, ht]
    | some content => simp [perform, storageOps, SaveOp.act, ht, after] at h
  | some f =>
    obtain ⟨position, kind⟩ := f
    obtain rfl : position = 0 := hf _ rfl
    cases kind with
    | stop => rfl
    | fail done => rfl

theorem save_canonical {fault : Option Fault} {chain : List Block} {disk : StorageDisk} {halt : Halt}
    (hf : ∀ f ∈ fault, f.position ≤ (writeTempOps K chain).length) (h : (disk.save K fault chain).1 = some halt) :
    (disk.save K fault chain).2.canonical = disk.canonical := by
  unfold StorageDisk.save at h ⊢
  split
  · rfl
  · rename_i hne
    rw [if_neg hne] at h
    rcases hv : validateCandidateChain K chain with e | _ | _
    · rfl
    · rfl
    · rw [hv] at h
      dsimp only at h ⊢
      rw [perform_append] at h ⊢
      have hcanonical := writeTemp_canonical (K := K) fault chain disk
      rcases hp : perform storageOps fault (writeTempOps K chain) disk with ⟨_ | first, written⟩
      · rw [hp] at h hcanonical
        dsimp only at h hcanonical ⊢
        rw [← hcanonical]
        refine rename_canonical ?_ h
        intro f hfault
        cases fault with
        | none => cases hfault
        | some g =>
          have hle := hf g rfl
          simp only [after] at hfault
          split at hfault
          · cases hfault
            dsimp only
            omega
          · cases hfault
      · rw [hp] at hcanonical
        exact hcanonical

/-! ## The checks -/

theorem appendChecks_ok {chain : List Block} {u u' : UTXOSet} {t t' : UInt64} {block : Block} (hr : Replay K chain u t)
    (ha : Appends K chain u t block u' t') : appendChecks K chain block = .ok () := by
  obtain ⟨previous, hlast, hheight, hprev, htime, hdiff⟩ := ha.extends_
  unfold appendChecks
  rw [hlast]
  dsimp only
  rw [if_neg (by simp [hheight]), if_neg (by simp [hprev]), if_neg htime]
  by_cases hshort : chain.length < czrDifficultyWindow + 1
  · rw [if_pos hshort, if_neg (by simp [hdiff])]
    exact bind_ok.mpr ⟨true, ha.basic, rfl⟩
  · rw [if_neg hshort]
    exact bind_ok.mpr ⟨u, rebuildUtxoSet_ok.mpr ⟨t, hr⟩,
      bind_ok.mpr ⟨true, (consensus_iff_appends hr).mpr ⟨u', t', ha⟩, rfl⟩⟩

theorem save_done {chain : List Block} {disk : StorageDisk} (h : (disk.save K none chain).1 = none) :
    validateCandidateChain K chain = .ok true := by
  unfold StorageDisk.save at h
  split at h
  · cases h
  · rcases hv : validateCandidateChain K chain with e | _ | _
    · rw [hv] at h
      cases h
    · rw [hv] at h
      cases h
    · rfl

theorem save_written {chain : List Block} (disk : StorageDisk) (hv : validateCandidateChain K chain = .ok true)
    (hs : ∀ block ∈ chain, block.Fits uint32Max ∧ block.bytes.length ≤ maxBlockBytes) :
    disk.save K none chain = (none, ⟨some (fileBytes K chain), none⟩) := by
  obtain ⟨u, t, hr⟩ := candidate_iff.mp hv
  unfold StorageDisk.save
  rw [if_neg (by simpa using hr.ne_nil), hv]
  dsimp only
  rw [perform_append, perform_writeTemp disk hs]
  rfl

/-- The cell makes the same checks before it saves. -/
theorem append_cell {storage : BlockchainStorage} {chain : List Block} {block : Block}
    (hload : storage.load K = .ok chain) :
    storage.append K block = (do appendChecks K chain block; BlockchainStorage.save K (chain ++ [block])) := by
  obtain ⟨rfl, hl⟩ := load_ok.mp hload
  obtain ⟨u, t, hr⟩ := hl.replay
  obtain ⟨previous, hlast⟩ : ∃ previous, chain.getLast? = some previous := ⟨_, List.getLast?_eq_some_getLast hr.ne_nil⟩
  unfold BlockchainStorage.append appendChecks BlockchainStorage.checkAppended
  rw [hload, hlast]
  dsimp only [Option.isSome_some, bind, Except.bind]
  rw [if_pos rfl, hlast]
  dsimp only
  by_cases hheight : block.header.height ≠ previous.header.height + 1
  · rw [if_pos hheight, if_pos hheight]
    rfl
  rw [if_neg hheight, if_neg hheight]
  by_cases hprevious : block.header.previousHash ≠ previous.hash K
  · rw [if_pos hprevious, if_pos hprevious]
    rfl
  rw [if_neg hprevious, if_neg hprevious]
  by_cases htime : block.header.timestamp < previous.header.timestamp
  · rw [if_pos htime, if_pos htime]
    rfl
  rw [if_neg htime, if_neg htime]
  by_cases hshort : chain.length < czrDifficultyWindow + 1
  · rw [if_pos hshort, if_pos hshort]
    by_cases hdifficulty : block.header.difficulty ≠ expectedNextDifficulty chain
    · rw [if_pos hdifficulty, if_pos hdifficulty]
      rfl
    rw [if_neg hdifficulty, if_neg hdifficulty]
    cases block.validateBasic K with
    | error e => rfl
    | ok basic =>
      cases basic with
      | true => rfl
      | false =>
        show BlockchainStorage.basicFailure K block = _
        unfold BlockchainStorage.basicFailure
        cases block.validateMerkleRoot K with
        | error e => rfl
        | ok merkle =>
          cases block.validateWitnessRoot K with
          | error e => rfl
          | ok witness => rfl
  · rw [if_neg hshort, if_neg hshort]
    cases rebuildUtxoSet K chain with
    | error e => rfl
    | ok utxos =>
      dsimp only
      cases validateBlockConsensus K block chain utxos with
      | error e => rfl
      | ok valid => cases valid with
        | true => rfl
        | false => rfl

section
variable {disk : StorageDisk} {chain : List Block} {block : Block}

theorem append_unread {content : Bytes} {e : Error} (hdisk : disk.canonical = some content)
    (hload : StorageFile.load K (some content) = .error e) (fault : Option Fault) :
    disk.append K fault block = (some (.threw e.what), disk) := by
  unfold StorageDisk.append
  rw [hdisk, Option.isSome_some, if_pos rfl, hload]
  rfl

theorem append_refused {content : Bytes} {e : Error} (hdisk : disk.canonical = some content)
    (hload : StorageFile.load K (some content) = .ok chain) (hchecks : appendChecks K chain block = .error e)
    (fault : Option Fault) : disk.append K fault block = (some (.threw e.what), disk) := by
  unfold StorageDisk.append
  rw [hdisk, Option.isSome_some, if_pos rfl, hload]
  dsimp only [bind, Except.bind]
  rw [hchecks]

theorem append_saves {content : Bytes} (hdisk : disk.canonical = some content)
    (hload : StorageFile.load K (some content) = .ok chain) (hchecks : appendChecks K chain block = .ok ())
    (fault : Option Fault) : disk.append K fault block = disk.save K fault (chain ++ [block]) := by
  unfold StorageDisk.append
  rw [hdisk, Option.isSome_some, if_pos rfl, hload]
  dsimp only [bind, Except.bind]
  rw [hchecks]
  rfl

/-- What the cell takes the file takes too, and then it holds the new content of the cell. -/
theorem append_simulates {content : Bytes} {longer : BlockchainStorage} (hdisk : disk.canonical = some content)
    (hload : StorageFile.load K (some content) = .ok chain)
    (happend : BlockchainStorage.append K (some chain) block = .ok longer) :
    disk.append K none block = (none, ⟨longer.map (fileBytes K), none⟩) := by
  have hcell : BlockchainStorage.load K (some chain) = .ok chain := load_ok.mpr ⟨rfl, (fileLoad_ok.mp hload).1⟩
  rw [append_cell hcell] at happend
  obtain ⟨done, hchecks, hsave⟩ := bind_ok.mp happend
  obtain ⟨rfl, hv, hs⟩ := save_ok.mp hsave
  rw [append_saves hdisk hload hchecks]
  exact save_written disk hv hs

theorem append_accepts_iff {content : Bytes} (hdisk : disk.canonical = some content)
    (hload : StorageFile.load K (some content) = .ok chain)
    (hs : ∀ b ∈ chain ++ [block], b.Fits uint32Max ∧ b.bytes.length ≤ maxBlockBytes) :
    (disk.append K none block).1 = none ↔ validateCandidateChain K (chain ++ [block]) = .ok true := by
  obtain ⟨u, t, hr⟩ := (fileLoad_ok.mp hload).1.replay
  constructor
  · intro h
    cases hchecks : appendChecks K chain block with
    | error e =>
      rw [append_refused hdisk hload hchecks] at h
      cases h
    | ok done =>
      rw [append_saves hdisk hload hchecks] at h
      exact save_done h
  · intro hv
    obtain ⟨u', t', hr'⟩ := candidate_iff.mp hv
    obtain ⟨v, s, hbefore, ha⟩ := Replay.of_snoc hr.ne_nil hr'
    rw [append_saves hdisk hload (appendChecks_ok hbefore ha), save_written disk hv hs]

/-- On a chain that `save` wrote, `append` takes exactly the blocks of valid longer chains, as long as the chain can be
read back. It leaves the file of the longer chain, and a failure up to the rename leaves the old file. -/
theorem append_exact_iff {file : Bytes} (hsaved : StorageFile.save K chain = .ok file) (hdisk : disk.canonical = some file)
    (hblock : block.Fits uint32Max ∧ block.bytes.length ≤ maxBlockBytes) :
    ((disk.append K none block).1 = none ↔ (chain.length ≤ maxBlocks ∧ ∀ b ∈ chain, b.WithinLimits) ∧
      validateCandidateChain K (chain ++ [block]) = .ok true) ∧
    ((disk.append K none block).1 = none → ∃ longer, StorageFile.save K (chain ++ [block]) = .ok longer ∧
      (disk.append K none block).2 = ⟨some longer, none⟩) ∧
    ∀ fault halt, (disk.append K fault block).1 = some halt →
      (∀ f ∈ fault, f.position ≤ (writeTempOps K (chain ++ [block])).length) →
      (disk.append K fault block).2.canonical = some file := by
  obtain ⟨-, hs, -⟩ := fileSave_ok.mp hsaved
  have hwritable : ∀ b ∈ chain ++ [block], b.Fits uint32Max ∧ b.bytes.length ≤ maxBlockBytes := by
    intro b hb
    rcases List.mem_append.mp hb with hb | hb
    · exact hs b hb
    · rw [List.mem_singleton.mp hb]
      exact hblock
  rw [← saved_loadable_iff hsaved]
  cases hload : StorageFile.load K (some file) with
  | error e =>
    have hnot : ¬ Loadable K chain := by
      intro hl
      rw [load_cell hsaved, load_ok.mpr ⟨rfl, hl⟩] at hload
      cases hload
    have happend : ∀ fault, disk.append K fault block = (some (.threw e.what), disk) := append_unread hdisk hload
    refine ⟨?_, ?_, ?_⟩
    · rw [happend]
      simp [hnot]
    · intro h
      rw [happend] at h
      cases h
    · intro fault halt _ _
      rw [happend]
      exact hdisk
  | ok found =>
    obtain ⟨hfound, hl⟩ := load_ok.mp ((load_cell hsaved).symm.trans hload)
    obtain rfl := Option.some.inj hfound
    have haccepts := append_accepts_iff hdisk hload hwritable
    refine ⟨?_, ?_, ?_⟩
    · rw [haccepts]
      exact (and_iff_right hl).symm
    · intro h
      have hv := haccepts.mp h
      refine ⟨_, fileSave_ok.mpr ⟨hv, hwritable, rfl⟩, ?_⟩
      cases hchecks : appendChecks K chain block with
      | error e =>
        rw [append_refused hdisk hload hchecks] at h
        cases h
      | ok done => rw [append_saves hdisk hload hchecks, save_written disk hv hwritable]
    · intro fault halt h hf
      cases hchecks : appendChecks K chain block with
      | error e =>
        rw [append_refused hdisk hload hchecks]
        exact hdisk
      | ok done =>
        rw [append_saves hdisk hload hchecks] at h ⊢
        exact (save_canonical hf h).trans hdisk

end

end

/-! ## A block after the first -/

theorem append_exact_toy : (StorageDisk.append toyCrypto none toyFirst ⟨some (fileBytes toyCrypto [toyGenesis]), none⟩).1 = none ∧
    (StorageDisk.append toyCrypto none toyFirst ⟨some (fileBytes toyCrypto [toyGenesis]), none⟩).2.canonical =
      some (fileBytes toyCrypto [toyGenesis, toyFirst]) := by
  have hsaved : StorageFile.save toyCrypto [toyGenesis] = .ok (fileBytes toyCrypto [toyGenesis]) := by decide +kernel
  have hload : BlockchainStorage.load toyCrypto (some [toyGenesis, toyFirst]) = .ok [toyGenesis, toyFirst] := by
    decide +kernel
  obtain ⟨-, hl⟩ := load_ok.mp hload
  have hstored := hl.stored toyFirst (by simp)
  have hdisk : (⟨some (fileBytes toyCrypto [toyGenesis]), none⟩ : StorageDisk).canonical =
      some (fileBytes toyCrypto [toyGenesis]) := rfl
  obtain ⟨haccepts, hwritten, -⟩ := append_exact_iff hsaved hdisk ⟨hstored.1.mono decodeLimit_le, hstored.2⟩
  have hdone := haccepts.mpr ⟨⟨by decide, fun b hb => Block.withinLimits_iff.mpr (hl.stored b (by simp_all)).1⟩, hl.valid⟩
  obtain ⟨longer, hlonger, hfile⟩ := hwritten hdone
  refine ⟨hdone, ?_⟩
  rw [hfile, (fileSave_ok.mp hlonger).2.2]
  rfl

/-! ## A first block that is not read back -/

def longGenesis : Block := genesisFor toyCrypto (List.replicate 1000000 7)

theorem longGenesis_saved : StorageFile.save toyCrypto [longGenesis] = .ok (fileBytes toyCrypto [longGenesis]) := by
  have hlen : (List.replicate 1000000 (7 : UInt8)).length = 1000000 := List.length_replicate
  exact genesisFor_saved (List.ne_nil_of_length_pos (by omega)) (by omega)

theorem longGenesis_unreadable : ¬ Loadable toyCrypto [longGenesis] := by
  intro hl
  have hfull := ((hl.stored _ List.mem_cons_self).1.transactions _ List.mem_cons_self).2
  rw [genesis_length, List.length_replicate, decodeLimit] at hfull
  omega

theorem toy_pow {block : Block} (h : block.header.difficulty = 12) : block.validatePow toyCrypto = true := by
  have hzeros : ∀ data, countLeadingZeroBits (toyCrypto.sha256 data) = 23 := by
    intro data
    simp only [countLeadingZeroBits, toyCrypto, countLeadingZeros, if_true]
    rw [if_neg (by decide : ¬ (1 : UInt8) = 0)]
    rfl
  unfold Block.validatePow validatePow powMeetsDifficulty calculatePowHash
  rw [h, hzeros]
  decide

/-- The chain of this block is valid and within the size limit, and so is the chain with one block more, but `append`
cannot read what `save` wrote. -/
theorem append_long_genesis_throws : StorageFile.save toyCrypto [longGenesis] = .ok (fileBytes toyCrypto [longGenesis]) ∧
    ∃ block : Block, block.Fits uint32Max ∧ block.bytes.length ≤ maxBlockBytes ∧
      validateCandidateChain toyCrypto ([longGenesis] ++ [block]) = .ok true ∧
      ∃ what, StorageDisk.append toyCrypto none block ⟨some (fileBytes toyCrypto [longGenesis]), none⟩ =
        (some (.threw what), ⟨some (fileBytes toyCrypto [longGenesis]), none⟩) := by
  refine ⟨longGenesis_saved, ?_⟩
  have hlen : (List.replicate 1000000 (7 : UInt8)).length = 1000000 := List.length_replicate
  have hr : Replay toyCrypto [longGenesis] ∅ 0 :=
    .genesis (genesisFor_valid (List.ne_nil_of_length_pos (by omega)) (by rw [hlen]; decide))
  have hcf : CollisionFree toyCrypto ((coinbaseAfter longGenesis [7] :: []).map Transaction.bytes) := by
    simp [CollisionFree]
  have hcalls : ∀ call ∈ ([] : List (PoolCall toyCrypto)), call.Grounded [] := by simp
  have htime : ¬ (0 : UInt64) < longGenesis.header.timestamp := by decide
  obtain ⟨block, ordered, hbuild, hb, hperm, happends⟩ := built_appends hcf hcalls hr (by simp [ledger]) (by decide) rfl
    (by simp) (by decide) htime (fun k hk => absurd hk (Finmap.notMem_empty)) fun k hk => absurd hk (Finmap.notMem_empty)
  obtain ⟨others, root, witness, -, -, hblock⟩ := buildBlock_ok hbuild
  have hnonce : { block with header := { block.header with nonce := 0 } } = block := by rw [hblock]
  have hdifficulty : block.header.difficulty = 12 := by
    rw [hblock]
    rfl
  obtain ⟨u', t', ha⟩ := happends 0 (by rw [hnonce]; exact toy_pow hdifficulty)
  rw [hnonce] at ha
  -- the pool is empty, so the block has its coinbase only
  have hempty : (Mempool.after ([] : List (PoolCall toyCrypto))).snapshot = [] := rfl
  have hnil : ordered = [] := by
    rw [hempty] at hperm
    exact hperm.elim id List.Perm.eq_nil
  rw [hnil] at hb
  have hsize : (coinbaseAfter longGenesis [7]).fullBytes.length = 77 := by decide
  have hfits : block.Fits uint32Max := by
    refine ⟨by rw [hb]; decide, ?_⟩
    intro tx htx
    have htxfits := (validateRoots_true (basic_roots ha.basic)).1 tx htx
    rw [hb, List.mem_singleton] at htx
    refine ⟨htxfits, ?_⟩
    rw [htx, hsize]
    decide
  refine ⟨block, hfits, ?_, candidate_iff.mpr ⟨u', t', .snoc hr ha⟩, ?_⟩
  · rw [blockBytes_length, hb, weight, List.map_singleton, List.sum_singleton, hsize]
    decide
  · cases hload : StorageFile.load toyCrypto (some (fileBytes toyCrypto [longGenesis])) with
    | error e => exact ⟨e.what, append_unread rfl hload none⟩
    | ok found =>
      obtain ⟨hfound, hl⟩ := load_ok.mp ((load_cell longGenesis_saved).symm.trans hload)
      rw [← Option.some.inj hfound] at hl
      exact absurd hl longGenesis_unreadable

end Caesar
