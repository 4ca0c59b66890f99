import Caesar.AppendSound
import Caesar.PowerLoss

/-!
# A chain file is never torn

The temporary file is synced before it gets the canonical name, so whatever file
that name stands for after a loss of power was written to its end. Once the
directory has been synced there is no older file to come back.
-/

namespace Caesar

open Codec Script Durable

section
variable {K : Crypto} {syncable : Bool} {fault : Option Fault} {chain : List Block} {disk : DurableDisk}

/-! ## What running programs see -/

def DurableDisk.seen (disk : DurableDisk) : StorageDisk := ⟨disk.main.map File.content, disk.temp.map File.content⟩

theorem perform_seen (ops : List SaveOp) (fault : Option Fault) (disk : DurableDisk) :
    perform storageOps fault ops (DurableDisk.seen disk) =
      ((perform (cachedOps syncable) fault ops disk).1,
        DurableDisk.seen (perform (cachedOps syncable) fault ops disk).2) := by
  apply perform_map (f := DurableDisk.seen)
  · intro op d
    obtain ⟨main, _ | file, older⟩ := d
    · cases op <;> first | rfl | cases syncable <;> rfl
    · cases op <;> first | rfl | cases syncable <;> rfl
  · intro done op d
    obtain ⟨main, _ | file, older⟩ := d
    · cases op <;> rfl
    · cases op <;> rfl
  · rfl
  · intro op d
    cases op <;> rfl

theorem save_seen : StorageDisk.save K fault chain (DurableDisk.seen disk) =
    ((DurableDisk.save K syncable fault chain disk).1, DurableDisk.seen (DurableDisk.save K syncable fault chain disk).2) := by
  unfold StorageDisk.save DurableDisk.save
  by_cases hempty : chain.isEmpty
  · rw [if_pos hempty, if_pos hempty]
  · rw [if_neg hempty, if_neg hempty]
    rcases validateCandidateChain K chain with e | _ | _
    · rfl
    · rfl
    · exact perform_seen _ fault disk

theorem append_seen {block : Block} : StorageDisk.append K fault block (DurableDisk.seen disk) =
    ((DurableDisk.append K syncable fault block disk).1,
      DurableDisk.seen (DurableDisk.append K syncable fault block disk).2) := by
  have hchecked : (do
      let chain ← if (DurableDisk.seen disk).canonical.isSome then StorageFile.load K (DurableDisk.seen disk).canonical
        else pure []
      appendChecks K chain block
      pure (chain ++ [block]) : Result (List Block)) = DurableDisk.appended K block disk := rfl
  unfold StorageDisk.append DurableDisk.append
  dsimp only
  rw [hchecked]
  cases DurableDisk.appended K block disk with
  | error e => rfl
  | ok chain => exact save_seen

/-! ## The temporary file -/

def writtenFile (K : Crypto) (chain : List Block) : File UInt8 := ⟨fileBytes K chain, true⟩

theorem writeBlock_cached {block : Block} {main : Option (File UInt8)} {older : List (Option (File UInt8))}
    {written : Bytes} {d' : DurableDisk}
    (h : (writeBlockOps K block).foldlM (fun d op => op.cached syncable d) ⟨main, some ⟨written, false⟩, older⟩ = some d') :
    (block.Fits uint32Max ∧ block.bytes.length ≤ maxBlockBytes) ∧
      d' = ⟨main, some ⟨written ++ StorageFile.record K block.bytes, false⟩, older⟩ := by
  unfold writeBlockOps at h
  cases hw : writeBlock block with
  | error e =>
    rw [hw] at h
    cases h
  | ok data =>
    obtain ⟨hfits, rfl⟩ := (writeBlock_ok block data).mp hw
    rw [hw] at h
    refine ⟨hfits, ?_⟩
    have hd := Option.some.inj h
    rw [← hd, StorageFile.record]
    simp [Dir.write, List.append_assoc]

theorem writeBlocks_cached {main : Option (File UInt8)} {older : List (Option (File UInt8))} {d' : DurableDisk} :
    ∀ {chain : List Block} {written : Bytes},
    (chain.flatMap (writeBlockOps K)).foldlM (fun d op => op.cached syncable d) ⟨main, some ⟨written, false⟩, older⟩ =
      some d' →
    (∀ block ∈ chain, block.Fits uint32Max ∧ block.bytes.length ≤ maxBlockBytes) ∧
      d' = ⟨main, some ⟨written ++ chain.flatMap fun block => StorageFile.record K block.bytes, false⟩, older⟩
  | [], written, h => by
    refine ⟨nofun, ?_⟩
    rw [List.flatMap_nil, List.append_nil]
    exact (Option.some.inj h).symm
  | block :: chain, written, h => by
    rw [List.flatMap_cons, List.foldlM_append] at h
    obtain ⟨next, hblock, hrest⟩ := Option.bind_eq_some_iff.mp h
    obtain ⟨hfits, rfl⟩ := writeBlock_cached hblock
    obtain ⟨hall, rfl⟩ := writeBlocks_cached hrest
    refine ⟨List.forall_mem_cons.mpr ⟨hfits, hall⟩, ?_⟩
    rw [List.flatMap_cons, List.append_assoc]

theorem writeTempOps_throws : ∀ op ∈ writeTempOps K chain, (cachedOps syncable).error op ≠ none := by
  intro op _
  cases op <;> nofun

theorem writeTemp_synced {d' : DurableDisk} (h : perform (cachedOps syncable) fault (writeTempOps K chain) disk = (none, d')) :
    (∀ block ∈ chain, block.Fits uint32Max ∧ block.bytes.length ≤ maxBlockBytes) ∧
      d' = { disk with temp := some (writtenFile K chain) } := by
  have hdone := perform_complete _ writeTempOps_throws h
  rw [writeTempOps, List.foldlM_append] at hdone
  obtain ⟨opened, hopened, hdone⟩ := Option.bind_eq_some_iff.mp hdone
  obtain rfl := Option.some.inj hopened
  rw [List.foldlM_append] at hdone
  obtain ⟨filled, hfilled, hdone⟩ := Option.bind_eq_some_iff.mp hdone
  obtain ⟨hall, rfl⟩ := writeBlocks_cached hfilled
  refine ⟨hall, ?_⟩
  obtain rfl := Option.some.inj hdone
  simp [Dir.sync, Dir.write, Dir.create, writtenFile, fileBytes, List.append_assoc]

theorem cached_entries {op : SaveOp} {d d' : DurableDisk} (hop : op ≠ .rename ∧ op ≠ .fsyncParentDir)
    (h : op.cached syncable d = some d') : d'.entries = d.entries := by
  cases op with
  | rename => exact absurd rfl hop.1
  | fsyncParentDir => exact absurd rfl hop.2
  | refuse what => cases h
  | openToSync =>
    simp only [SaveOp.cached, Option.ite_none_right_eq_some, Option.some.injEq] at h
    rw [h.2]
  | _ =>
    cases h
    rfl

theorem spoilCached_entries (done : Nat) (op : SaveOp) (d : DurableDisk) : (op.spoilCached done d).entries = d.entries := by
  cases op <;> rfl

theorem cleanupCached_entries (op : SaveOp) (d : DurableDisk) : (op.cleanupCached d).entries = d.entries := by
  cases op <;> rfl

theorem writeTemp_entries : (perform (cachedOps syncable) fault (writeTempOps K chain) disk).2.entries = disk.entries := by
  refine perform_keeps (P := fun d => Dir.entries d = disk.entries) (cachedOps syncable) ?_ fault rfl
  intro op hop d hd
  have hne : op ≠ .rename ∧ op ≠ .fsyncParentDir := by
    refine ⟨fun he => writeTemp_no_rename (he ▸ hop), ?_⟩
    rintro rfl
    simp only [writeTempOps, writeBlockOps, List.mem_append, List.mem_cons, List.mem_flatMap, List.not_mem_nil, or_false,
      reduceCtorEq, false_or] at hop
    obtain ⟨block, -, h⟩ := hop
    split at h <;> simp at h
  refine ⟨?_, ?_, ?_⟩
  · intro d' hact
    exact (cached_entries hne hact).trans hd
  · intro done
    exact (spoilCached_entries done op d).trans hd
  · exact (cleanupCached_entries op d).trans hd

/-! ## One call -/

theorem rename_entries : (∃ halt d, perform (cachedOps syncable) fault (writeTempOps K chain ++ [.rename]) disk = (some halt, d) ∧
      d.entries = disk.entries) ∨
    (∀ block ∈ chain, block.Fits uint32Max ∧ block.bytes.length ≤ maxBlockBytes) ∧
      perform (cachedOps syncable) fault (writeTempOps K chain ++ [.rename]) disk =
        (none, ⟨some (writtenFile K chain), none, disk.entries⟩) := by
  have hkept : (perform (cachedOps syncable) fault (writeTempOps K chain) disk).2.entries = disk.entries := writeTemp_entries
  rw [perform_append]
  rcases hwrite : perform (cachedOps syncable) fault (writeTempOps K chain) disk with ⟨_ | halt, d⟩
  · obtain ⟨hall, rfl⟩ := writeTemp_synced hwrite
    generalize after (writeTempOps K chain).length fault = fault
    dsimp only
    by_cases hlater : ∀ f ∈ fault, f.position ≠ 0
    · right
      rw [perform_cons _ _ hlater]
      exact ⟨hall, rfl⟩
    · left
      simp only [not_forall, not_not] at hlater
      obtain ⟨⟨position, kind⟩, rfl, rfl⟩ := hlater
      cases kind with
      | stop => exact ⟨_, _, rfl, rfl⟩
      | fail done => exact ⟨_, _, rfl, rfl⟩
  · left
    rw [hwrite] at hkept
    exact ⟨halt, d, rfl, hkept⟩

theorem fsyncParentDir_entries {d : DurableDisk} :
    ∃ older, (perform (cachedOps syncable) fault [.fsyncParentDir] d).2.entries = d.main :: older ∧
      (older = [] ∨ older = d.older) ∧
      ((perform (cachedOps syncable) fault [.fsyncParentDir] d).1 = none → syncable = true → older = []) := by
  have hact : (cachedOps syncable).act .fsyncParentDir d = some (if syncable then d.syncDir else d) := rfl
  by_cases hlater : ∀ f ∈ fault, f.position ≠ 0
  · rw [perform_cons _ _ hlater, hact]
    cases syncable with
    | true => exact ⟨[], rfl, .inl rfl, fun _ _ => rfl⟩
    | false => exact ⟨d.older, rfl, .inr rfl, nofun⟩
  · simp only [not_forall, not_not] at hlater
    obtain ⟨⟨position, kind⟩, rfl, rfl⟩ := hlater
    cases kind with
    | stop => exact ⟨d.older, rfl, .inr rfl, nofun⟩
    | fail done => exact ⟨d.older, rfl, .inr rfl, nofun⟩

/-- A call of `save` throws, or is stopped, with the canonical name as it was, or it puts the whole file in place. If it
returns where directories can be synced, that file is the only one left. -/
theorem save_entries (syncable : Bool) (fault : Option Fault) (chain : List Block) (disk : DurableDisk) :
    (DurableDisk.renames K syncable fault chain disk = false ∧ (DurableDisk.save K syncable fault chain disk).1 ≠ none ∧
      (DurableDisk.save K syncable fault chain disk).2.entries = disk.entries) ∨
    (DurableDisk.renames K syncable fault chain disk = true ∧ StorageFile.save K chain = .ok (fileBytes K chain) ∧
      ∃ older, (DurableDisk.save K syncable fault chain disk).2.entries = some (writtenFile K chain) :: older ∧
        (older = [] ∨ older = disk.entries) ∧
        ((DurableDisk.save K syncable fault chain disk).1 = none → syncable = true → older = [])) := by
  unfold DurableDisk.save DurableDisk.renames
  by_cases hvalid : validateCandidateChain K chain = .ok true
  · have hne : ¬ chain.isEmpty := by
      obtain ⟨u, t, hr⟩ := candidate_iff.mp hvalid
      simpa using hr.ne_nil
    have hsplit := perform_append (cachedOps syncable) [.fsyncParentDir] (writeTempOps K chain ++ [.rename]) fault disk
    rw [List.append_assoc, List.singleton_append] at hsplit
    rw [if_neg hne, hvalid]
    dsimp only
    rw [hsplit]
    rcases rename_entries (K := K) with ⟨halt, d, hhalt, hentries⟩ | ⟨hall, hrenamed⟩
    · left
      rw [hhalt]
      exact ⟨by simp, nofun, hentries⟩
    · right
      rw [hrenamed]
      exact ⟨by simp, fileSave_ok.mpr ⟨hvalid, hall, rfl⟩, fsyncParentDir_entries⟩
  · left
    refine ⟨by simp [hvalid], ?_⟩
    by_cases hempty : chain.isEmpty
    · rw [if_pos hempty]
      exact ⟨nofun, rfl⟩
    · rw [if_neg hempty]
      rcases hv : validateCandidateChain K chain with e | _ | _
      · exact ⟨nofun, rfl⟩
      · exact ⟨nofun, rfl⟩
      · exact absurd hv hvalid

/-! ## Runs -/

/-- Whatever file the canonical name stands for, now or after a loss of power, it is the whole file of a known chain. -/
def Holds (K : Crypto) (known : List BlockchainStorage) (disk : DurableDisk) : Prop :=
  ∀ entry ∈ disk.entries, ∃ cell ∈ known, entry = cell.map (writtenFile K) ∧
    ∀ chain ∈ cell, StorageFile.save K chain = .ok (fileBytes K chain)

theorem Holds.mono {known more : List BlockchainStorage} (h : Holds K known disk) (hmore : known ⊆ more) :
    Holds K more disk := by
  intro entry hentry
  obtain ⟨cell, hcell, hwritten⟩ := h entry hentry
  exact ⟨cell, hmore hcell, hwritten⟩

theorem Holds.lose {known : List BlockchainStorage} (h : Holds K known disk) (loss : Loss UInt8) :
    Holds K known (disk.lose loss) := by
  have hsynced : ∀ file, some file ∈ disk.entries → file.synced = true := by
    intro file hfile
    obtain ⟨cell, -, hwritten, -⟩ := h _ hfile
    obtain ⟨chain, -, rfl⟩ := Option.map_eq_some_iff.mp hwritten.symm
    rfl
  obtain ⟨entry, hentry, hone⟩ := Dir.entries_lose hsynced loss
  intro found hfound
  rw [hone, List.mem_singleton] at hfound
  exact hfound ▸ h entry hentry

theorem Holds.save {known : List BlockchainStorage} (h : Holds K known disk) :
    Holds K (known ++ (if DurableDisk.renames K syncable fault chain disk then [chain] else []).map some)
      (DurableDisk.save K syncable fault chain disk).2 := by
  rcases save_entries (K := K) syncable fault chain disk with ⟨hnot, -, hsame⟩ | ⟨hdone, hsaved, older, hput, holder, -⟩
  · intro entry hentry
    rw [hsame] at hentry
    simpa [hnot] using h entry hentry
  · intro entry hentry
    rw [hput, List.mem_cons] at hentry
    rw [hdone, if_pos rfl]
    rcases hentry with rfl | hentry
    · exact ⟨some chain, by simp, rfl, by simpa using hsaved⟩
    · have hold : entry ∈ disk.entries := by
        rcases holder with rfl | rfl
        · cases hentry
        · exact hentry
      exact h.mono (List.subset_append_left _ _) entry hold

theorem Holds.step {known : List BlockchainStorage} (h : Holds K known disk) (event : StorageEvent) :
    Holds K (known ++ (DurableDisk.puts K disk event).map some) (DurableDisk.step K disk event) := by
  cases event with
  | save syncable fault chain => exact h.save
  | append syncable fault block =>
    simp only [DurableDisk.puts, DurableDisk.step, DurableDisk.append]
    cases DurableDisk.appended K block disk with
    | error e => exact h.mono (List.subset_append_left _ _)
    | ok chain => exact h.save
  | powerLoss loss => exact (h.lose loss).mono (List.subset_append_left _ _)

theorem Holds.run : ∀ (events : List StorageEvent) {known : List BlockchainStorage} {disk : DurableDisk},
    Holds K known disk → Holds K (known ++ (DurableDisk.history K events disk).map some) (DurableDisk.run K disk events)
  | [], known, disk, h => h.mono (List.subset_append_left _ _)
  | event :: rest, known, disk, h => by
    have hrest := Holds.run rest (h.step event)
    rwa [List.append_assoc, ← List.map_append] at hrest

theorem Holds.content {known : List BlockchainStorage} (h : Holds K known disk) :
    ∃ cell ∈ known, DurableDisk.content disk = cell.map (fileBytes K) ∧
      StorageFile.load K (DurableDisk.content disk) = BlockchainStorage.load K cell := by
  obtain ⟨cell, hcell, hmain, hsaved⟩ := h disk.main List.mem_cons_self
  have hcontent : DurableDisk.content disk = cell.map (fileBytes K) := by
    rw [DurableDisk.content, hmain, Option.map_map]
    rfl
  refine ⟨cell, hcell, hcontent, ?_⟩
  cases cell with
  | none =>
    rw [hcontent]
    rfl
  | some chain =>
    rw [hcontent]
    exact load_cell (hsaved chain rfl)

theorem step_main (disk : DurableDisk) {event : StorageEvent} (hpower : ∀ loss, event ≠ .powerLoss loss) :
    (DurableDisk.step K disk event).main =
      (DurableDisk.puts K disk event).getLast?.elim disk.main fun chain => some (writtenFile K chain) := by
  have hsave : ∀ syncable fault chain, (DurableDisk.save K syncable fault chain disk).2.main =
      (if DurableDisk.renames K syncable fault chain disk then [chain] else []).getLast?.elim disk.main
        fun chain => some (writtenFile K chain) := by
    intro syncable fault chain
    rcases save_entries (K := K) syncable fault chain disk with ⟨hnot, -, hsame⟩ | ⟨hdone, -, older, hput, -, -⟩
    · rw [hnot]
      exact (List.cons.inj hsame).1
    · rw [hdone]
      exact (List.cons.inj hput).1
  cases event with
  | save syncable fault chain => exact hsave syncable fault chain
  | append syncable fault block =>
    simp only [DurableDisk.puts, DurableDisk.step, DurableDisk.append]
    cases DurableDisk.appended K block disk with
    | error e => rfl
    | ok chain => exact hsave syncable fault chain
  | powerLoss loss => exact absurd rfl (hpower loss)

theorem run_main : ∀ (events : List StorageEvent) (disk : DurableDisk), (∀ loss, .powerLoss loss ∉ events) →
    (DurableDisk.run K disk events).main =
      (DurableDisk.history K events disk).getLast?.elim disk.main fun chain => some (writtenFile K chain)
  | [], disk, _ => rfl
  | event :: rest, disk, hpower => by
    have hstep := step_main (K := K) disk fun loss (he : event = .powerLoss loss) => hpower loss (he ▸ List.mem_cons_self)
    have hrest := run_main rest (DurableDisk.step K disk event) fun loss hloss => hpower loss (List.mem_cons_of_mem _ hloss)
    rw [hstep] at hrest
    rw [DurableDisk.history, List.getLast?_append]
    refine hrest.trans ?_
    cases (DurableDisk.history K rest (DurableDisk.step K disk event)).getLast? with
    | none => rfl
    | some chain => rfl

/-- A call that was to leave this chain has returned, on a file system that can sync directories. -/
def Returned (K : Crypto) (disk : DurableDisk) (chain : List Block) (disk' : DurableDisk) : Prop :=
  ∃ fault, DurableDisk.save K true fault chain disk = (none, disk') ∨
    ∃ block, DurableDisk.appended K block disk = .ok chain ∧ DurableDisk.append K true fault block disk = (none, disk')

theorem Returned.holds {disk' : DurableDisk} (h : Returned K disk chain disk') : Holds K [some chain] disk' := by
  obtain ⟨fault, hcall⟩ := h
  have hsave : DurableDisk.save K true fault chain disk = (none, disk') := by
    rcases hcall with hsave | ⟨block, happended, happend⟩
    · exact hsave
    · rwa [DurableDisk.append, happended] at happend
  rcases save_entries (K := K) true fault chain disk with ⟨-, hthrew, -⟩ | ⟨-, hsaved, older, hput, -, hdone⟩
  · exact absurd (congrArg Prod.fst hsave) hthrew
  · rw [hsave] at hput hdone
    intro entry hentry
    rw [hput, hdone rfl rfl, List.mem_singleton] at hentry
    exact ⟨some chain, List.mem_singleton_self _, hentry, by simpa using hsaved⟩

/-- From an empty directory, with any calls, any failures of file operations, any stops and any losses of power, the
canonical file is absent, or it is the whole file of a chain that a call has put in place. What is older than a call
that has returned does not come back, where directories can be synced. While the power lasts the file is that of the
chain put in place last. -/
theorem storage_survives (events : List StorageEvent) :
    (∃ cell ∈ none :: (DurableDisk.history K events DurableDisk.blank).map some,
      DurableDisk.content (DurableDisk.run K DurableDisk.blank events) = cell.map (fileBytes K) ∧
      StorageFile.load K (DurableDisk.content (DurableDisk.run K DurableDisk.blank events)) = BlockchainStorage.load K cell) ∧
    (∀ chain disk, Returned K (DurableDisk.run K DurableDisk.blank events) chain disk → ∀ later,
      ∃ found ∈ chain :: DurableDisk.history K later disk,
        DurableDisk.content (DurableDisk.run K disk later) = some (fileBytes K found) ∧
        StorageFile.load K (DurableDisk.content (DurableDisk.run K disk later)) = BlockchainStorage.load K (some found)) ∧
    ((∀ loss, .powerLoss loss ∉ events) → DurableDisk.content (DurableDisk.run K DurableDisk.blank events) =
      (DurableDisk.history K events DurableDisk.blank).getLast?.map (fileBytes K)) := by
  have hempty : Holds K [none] DurableDisk.blank := by
    intro entry hentry
    rw [DurableDisk.blank, Dir.entries, List.mem_singleton] at hentry
    exact ⟨none, List.mem_singleton_self _, hentry, by simp⟩
  refine ⟨(hempty.run events).content, ?_, ?_⟩
  · intro chain disk hreturned later
    obtain ⟨cell, hcell, hcontent⟩ := (hreturned.holds.run later).content
    rw [List.singleton_append, ← List.map_cons, List.mem_map] at hcell
    obtain ⟨found, hfound, rfl⟩ := hcell
    exact ⟨found, hfound, hcontent⟩
  · intro hpower
    rw [DurableDisk.content, run_main _ _ hpower]
    cases (DurableDisk.history K events DurableDisk.blank).getLast? with
    | none => rfl
    | some chain => rfl

end

/-! ## A stop and a loss of power during `append` -/

def toyOutage : List StorageEvent :=
  [.append true (some ⟨9, .stop⟩) toyFirst, .powerLoss ⟨0, [1, 2, 3], some [4]⟩]

theorem storage_survives_outage :
    let disk := (DurableDisk.save toyCrypto true none [toyGenesis] DurableDisk.blank).2
    StorageFile.load toyCrypto (DurableDisk.content (DurableDisk.run toyCrypto disk toyOutage)) = .ok [toyGenesis] := by
  intro disk
  have hreturned : Returned toyCrypto (DurableDisk.run toyCrypto DurableDisk.blank []) [toyGenesis] disk :=
    ⟨none, .inl (by decide +kernel)⟩
  obtain ⟨found, hfound, -, hload⟩ := (storage_survives []).2.1 _ _ hreturned toyOutage
  have hhistory : DurableDisk.history toyCrypto toyOutage disk = [] := by decide +kernel
  rw [hhistory, List.mem_singleton] at hfound
  rw [hload, hfound]
  exact toyGenesis_loaded

end Caesar
