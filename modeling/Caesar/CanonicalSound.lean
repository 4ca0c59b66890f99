import Caesar.NodeSound

/-!
# The canonical chain over runs

Whatever calls are made, and in whatever order, the stored chain stays valid, it
changes only for one with strictly more work, and its genesis stays the same: as
a block when it is the one that `ensureChain` writes, and by its header in every
case. A genesis block of three transactions or more can be swapped for one that
repeats the last of them, under the same hash.
-/

namespace Caesar

open Codec

section
variable {K : Crypto}

/-! ## Genesis -/

theorem merkleRoot_singleton (h : Hash256) : merkleRoot K [h] = h := by
  simp [merkleRoot, PairTree.climb]

theorem merkleRoot_hashed {l : List Hash256} (h : 1 < l.length) :
    ∃ p ∈ PairTree.hashed (hashPair K) l, merkleRoot K l = hashPair K p.1 p.2 := by
  obtain ⟨root, hroot⟩ := List.length_eq_one_iff.mp
    (PairTree.climb_length (hashPair K) l.length l (List.ne_nil_of_length_pos (by omega)) (by omega))
  obtain ⟨d, hd⟩ : ∃ d, PairTree.depth (hashPair K) l.length l = d + 1 := by
    cases hl : l.length with
    | zero => omega
    | succ n => exact ⟨_, by rw [PairTree.depth, if_pos h]⟩
  have hmem : root ∈ (PairTree.level (hashPair K))^[d + 1] l := by
    rw [← hd, ← PairTree.climb_eq, hroot]
    exact List.mem_singleton_self root
  obtain ⟨p, hp, hpr⟩ := PairTree.mem_level_succ _ hmem
  refine ⟨p, PairTree.mem_hashed _ (by omega) hp, ?_⟩
  rw [merkleRoot, hroot]
  exact hpr.symm

/-- A valid block with one transaction, which is not as long as a node of the tree, is determined by its hash. -/
theorem block_eq_of_single {b b' : Block} {tx : Transaction} (htx : b.transactions = [tx])
    (hlen : tx.fullBytes.length ≠ 64) (hb : b.validateBasic K = .ok true) (hb' : b'.validateBasic K = .ok true)
    (hne : b'.transactions ≠ []) (hcf : CollisionFree K (b.strings K ++ b'.strings K))
    (hhash : b'.hash K = b.hash K) : b' = b := by
  have hheader := header_eq_of_hash hcf hhash.symm
  obtain ⟨hf, -, hw⟩ := validateRoots_true (basic_roots hb)
  obtain ⟨hf', -, hw'⟩ := validateRoots_true (basic_roots hb')
  have hmem : tx.fullBytes ∈ b.strings K ++ b'.strings K := by simp [Block.strings, bodyStrings, htx]
  have hroot : merkleRoot K (b'.transactions.map (Transaction.wid K)) = K.sha256 tx.fullBytes := by
    rw [← hw', ← hheader, hw, htx, List.map_singleton, merkleRoot_singleton]
    rfl
  have htxs : b'.transactions = [tx] := by
    by_cases hmany : 1 < b'.transactions.length
    · obtain ⟨p, hp, hpr⟩ := merkleRoot_hashed (K := K) (l := b'.transactions.map (Transaction.wid K)) (by simpa using hmany)
      have hnode : p.1.1 ++ p.2.1 ∈ b.strings K ++ b'.strings K := by
        refine List.mem_append_right _ (List.mem_cons_of_mem _ (List.mem_append_right _ (List.mem_map.mpr ⟨p, hp, rfl⟩)))
      have he := congrArg List.length (hcf _ hnode _ hmem (hpr.symm.trans hroot))
      rw [List.length_append, p.1.2, p.2.2] at he
      exact absurd he.symm hlen
    · obtain ⟨tx', htx'⟩ := List.length_eq_one_iff.mp
        (show b'.transactions.length = 1 by have := List.length_pos_of_ne_nil hne; omega)
      rw [htx', List.map_singleton, merkleRoot_singleton] at hroot
      have hmem' : tx'.fullBytes ∈ b.strings K ++ b'.strings K := by simp [Block.strings, bodyStrings, htx']
      rw [htx', fullBytes_inj (hf' tx' (by simp [htx'])) (hf tx (by simp [htx])) (hcf _ hmem' _ hmem hroot)]
  cases b
  cases b'
  simp only at hheader htx htxs
  rw [hheader, htx, htxs]

theorem genesis_nonempty {block : Block} (h : validateGenesisCanonical K block = .ok true) :
    block.transactions ≠ [] := by
  obtain ⟨hh, -, hb⟩ := genesis_true h
  intro hnil
  unfold Block.validateBasic at hb
  simp only [hh, ite_true, hnil, List.isEmpty_nil] at hb
  repeat' split at hb
  all_goals simp at hb

theorem ensureChain_single {networkId : UInt32} {genesis : Block} {rest : List Block}
    (h : ensureChain K networkId none = .ok (some (genesis :: rest))) :
    ∃ tx, genesis.transactions = [tx] ∧ tx.fullBytes.length ≠ 64 := by
  simp only [ensureChain, Option.isSome_none, Bool.false_eq_true, ite_false, bind_ok] at h
  obtain ⟨block, hbuild, hsave⟩ := h
  have he := (save_ok.mp hsave).1
  simp only [Option.some.injEq, List.cons.injEq] at he
  rw [he.1]
  simp only [buildCanonicalGenesis, Block.updateMerkleRoot, bind_ok, pure_ok] at hbuild
  obtain ⟨_, -, _, -, rfl⟩ := hbuild
  refine ⟨_, rfl, ?_⟩
  by_cases hn : networkId = networkTestnet
  · rw [if_pos hn]; decide
  · rw [if_neg hn]; decide

theorem replay_genesis {genesis : Block} {rest : List Block} {u : UTXOSet} {t : UInt64}
    (h : Replay K (genesis :: rest) u t) : validateGenesisCanonical K genesis = .ok true :=
  (rebuild_cons.mp (rebuild_of_replay h)).1

/-! ## Runs -/

/-- The stored chain is kept, or replaced by a valid one with more work that continues it or has its genesis hash. -/
theorem Step.chain {node after : Node K} {call : Call K} (hs : Step node call after) {chain : List Block}
    (hstore : node.storage = some chain) :
    after.storage = some chain ∨ ∃ chain' u t, after.storage = some chain' ∧ Replay K chain' u t ∧
      work chain < work chain' ∧ (chain'.head? = chain.head? ∨
        (∃ walk, call = .replaceChain walk chain') ∧
          chain'.head?.map (Block.hash K) = chain.head?.map (Block.hash K)) := by
  have hgrow : ∀ {more : List Block} {u : UTXOSet} {t : UInt64}, Replay K chain u t → more ≠ [] →
      work chain < work (chain ++ more) ∧ (chain ++ more).head? = chain.head? := by
    intro more u t hr hne
    have := work_pos hne
    rw [work_append]
    exact ⟨by omega, List.head?_append_of_ne_nil chain hr.ne_nil⟩
  have hloaded : ∀ {loaded : List Block}, node.storage.load K = .ok loaded → chain = loaded := by
    intro loaded hl
    rw [(load_ok.mp hl).1, Option.some.injEq] at hstore
    exact hstore.symm
  cases hs with
  | stay => exact Or.inl hstore
  | accept => exact Or.inl hstore
  | mine _ hm =>
    obtain ⟨loaded, u, t, u', t', hload, hr, ha, rfl⟩ := hm
    obtain rfl := hloaded hload
    obtain ⟨hw, hh⟩ := hgrow hr (List.cons_ne_nil _ [])
    exact Or.inr ⟨_, _, _, rfl, .snoc hr ha, hw, Or.inl hh⟩
  | @replace walk candidate _ u t hload hr hh hw =>
    obtain rfl := hloaded hload
    exact Or.inr ⟨candidate, u, t, rfl, hr, hw, Or.inr ⟨⟨walk, rfl⟩, hh⟩⟩
  | relay hload _ _ hne hr =>
    obtain rfl := hloaded hload
    obtain ⟨u', t', hr'⟩ := (load_ok.mp hload).2.replay
    obtain ⟨hw, hh⟩ := hgrow hr' hne
    exact Or.inr ⟨_, _, _, rfl, hr, hw, Or.inl hh⟩

/-- The stored chain is valid and starts with the header of `genesis`, and with `genesis` itself when that is `fixed`. -/
structure Canonical (K : Crypto) (genesis : Block) (fixed : Prop) (node : Node K) : Prop where
  stored : ∃ first more u t, node.storage = some (first :: more) ∧ Replay K (first :: more) u t ∧
    first.header = genesis.header ∧ (fixed → first = genesis)

variable {genesis : Block} {fixed : Prop}

theorem Canonical.step {node : Node K} {call : Call K} (hg : validateGenesisCanonical K genesis = .ok true)
    (hfix : fixed → ∃ tx, genesis.transactions = [tx] ∧ tx.fullBytes.length ≠ 64)
    (hcf : ∀ walk first more, call = .replaceChain walk (first :: more) →
      CollisionFree K (genesis.strings K ++ first.strings K))
    (h : Canonical K genesis fixed node) : Canonical K genesis fixed (node.call call) := by
  obtain ⟨first, more, u, t, hstore, hr, hheader, hsame⟩ := h.stored
  rcases (call_step node call).chain hstore with hkeep | ⟨chain', u', t', hafter, hr', -, hhead⟩
  · exact ⟨first, more, u, t, hkeep, hr, hheader, hsame⟩
  · cases chain' with
    | nil => exact absurd rfl hr'.ne_nil
    | cons first' more' =>
      refine ⟨first', more', u', t', hafter, hr', ?_⟩
      rcases hhead with hhead | ⟨⟨walk, hcall⟩, hhash⟩
      · simp only [List.head?_cons, Option.some.injEq] at hhead
        exact hhead ▸ ⟨hheader, hsame⟩
      · -- the genesis of the run, not the one stored now, is compared with the candidate's
        have hhash' : first'.hash K = genesis.hash K := by
          simp only [List.head?_cons, Option.map_some, Option.some.injEq] at hhash
          rw [hhash, Block.hash, hheader, Block.hash]
        have hfree := hcf walk first' more' hcall
        refine ⟨(header_eq_of_hash hfree hhash'.symm).symm, fun hf => ?_⟩
        obtain ⟨tx, htx, hlen⟩ := hfix hf
        have hg' := replay_genesis hr'
        exact block_eq_of_single htx hlen (genesis_true hg).2.2 (genesis_true hg').2.2 (genesis_nonempty hg') hfree
          hhash'

theorem Canonical.run (hg : validateGenesisCanonical K genesis = .ok true)
    (hfix : fixed → ∃ tx, genesis.transactions = [tx] ∧ tx.fullBytes.length ≠ 64) :
    ∀ {calls : List (Call K)} {node : Node K}, (∀ walk first more, Call.replaceChain walk (first :: more) ∈ calls →
      CollisionFree K (genesis.strings K ++ first.strings K)) → Canonical K genesis fixed node →
      Canonical K genesis fixed (node.run calls)
  | [], _, _, h => h
  | call :: calls, node, hcf, h => by
    have hstep : Canonical K genesis fixed (node.call call) :=
      h.step hg hfix fun walk first more he => hcf walk first more (by simp [he])
    show Canonical K genesis fixed ((node.call call).run calls)
    exact Canonical.run hg hfix (fun walk first more hm => hcf walk first more (by simp [hm])) hstep

/-- Whatever is called, the stored chain stays valid, keeps its genesis header, keeps its genesis block when that is
the network's own, and changes only for a chain with more work. -/
theorem stored_chain_safe {node : Node K} {rest : List Block} (hstart : node.storage = some (genesis :: rest))
    (hvalid : validateCandidateChain K (genesis :: rest) = .ok true) (calls : List (Call K))
    (hcf : ∀ walk first more, Call.replaceChain walk (first :: more) ∈ calls →
      CollisionFree K (genesis.strings K ++ first.strings K)) :
    ∃ first more, (node.run calls).storage = some (first :: more) ∧
      validateCandidateChain K (first :: more) = .ok true ∧ first.header = genesis.header ∧
      ((∃ networkId, ensureChain K networkId none = .ok (some (genesis :: rest))) → first = genesis) ∧
      ∀ call, ((node.run calls).call call).storage = some (first :: more) ∨
        ∃ chain before after, ((node.run calls).call call).storage = some chain ∧
          cumulativeChainWork (first :: more) = .ok before ∧ cumulativeChainWork chain = .ok after ∧
          after.gt before = true := by
  obtain ⟨u, t, hr⟩ := candidate_iff.mp hvalid
  have hrun : Canonical K genesis (∃ networkId, ensureChain K networkId none = .ok (some (genesis :: rest)))
      (node.run calls) :=
    Canonical.run (replay_genesis hr) (fun ⟨_, he⟩ => ensureChain_single he) hcf
      ⟨genesis, rest, u, t, hstart, hr, rfl, fun _ => rfl⟩
  obtain ⟨first, more, u', t', hstore, hr', hheader, hsame⟩ := hrun.stored
  refine ⟨first, more, hstore, candidate_iff.mpr ⟨u', t', hr'⟩, hheader, hsame, fun call => ?_⟩
  rcases (call_step (node.run calls) call).chain hstore with hkeep | ⟨chain, u'', t'', hafter, hr'', hw, -⟩
  · exact Or.inl hkeep
  · obtain ⟨before, hb, hbv⟩ := hr'.cumulativeWork
    obtain ⟨after, ha, hav⟩ := hr''.cumulativeWork
    refine Or.inr ⟨chain, before, after, hafter, hb, ha, ?_⟩
    rw [ChainWork.gt, ChainWork.lt_iff_toNat, hbv, hav]
    exact hw

end

def toyWalk : Walk toyCrypto := ⟨Mempool.snapshot, fun _ => .refl _⟩

def toyNode (chain : List Block) : Node toyCrypto := ⟨some chain, Mempool.empty toyCrypto, true, fun _ => none⟩

theorem toyGenesis_loaded : (toyNode [toyGenesis]).storage.load toyCrypto = .ok [toyGenesis] := by decide +kernel

theorem toyPair_loaded : (toyNode [toyGenesis, toyFirst]).storage.load toyCrypto = .ok [toyGenesis, toyFirst] := by
  decide +kernel

def toyBurn : Block := toyBlock 0 Hash256.zero 0 [⟨1, [], [], [⟨1, genesisBurnRecipient⟩], []⟩]

def toyMined : Block := toyNext toyBurn [toyCoinbase 1]

def toyCalls : List (Call toyCrypto) :=
  [.commitMined toyMined, .replaceChain toyWalk [toyBurn, toyMined, toyNext toyMined [toyCoinbase 2]]]

theorem stored_chain_safe_toy : ensureChain toyCrypto 1 none = .ok (some [toyBurn]) ∧
    ((toyNode [toyBurn]).run toyCalls).storage = some [toyBurn, toyMined, toyNext toyMined [toyCoinbase 2]] ∧
    ∃ first more, ((toyNode [toyBurn]).run toyCalls).storage = some (first :: more) ∧ first = toyBurn := by
  have hensure : ensureChain toyCrypto 1 none = .ok (some [toyBurn]) := by decide +kernel
  have hfree : CollisionFree toyCrypto (toyBurn.strings toyCrypto ++ toyBurn.strings toyCrypto) := by
    unfold CollisionFree; decide +kernel
  obtain ⟨first, more, hstore, -, -, hsame, -⟩ := stored_chain_safe
    (show (toyNode [toyBurn]).storage = some [toyBurn] from rfl) (by decide +kernel) toyCalls (by
      intro walk first more hm
      simp only [toyCalls, List.mem_cons, List.not_mem_nil, or_false, reduceCtorEq, false_or, Call.replaceChain.injEq,
        List.cons.injEq] at hm
      exact hm.2.1 ▸ hfree)
  exact ⟨hensure, by decide +kernel, first, more, hstore, hsame ⟨1, hensure⟩⟩

/-! ## A genesis block with another body -/

def burnTo (b : UInt8) : Transaction := ⟨1, [], [], [⟨1, [b]⟩], []⟩

def threeBurns : Block := toyBlock 0 Hash256.zero 0 [burnTo 1, burnTo 2, burnTo 3]

/-- The same header over a body that repeats the last transaction. -/
def fourBurns : Block := { threeBurns with transactions := [burnTo 1, burnTo 2, burnTo 3, burnTo 3] }

theorem genesis_body_replaced : ¬ ∀ (K : Crypto) (node : Node K) (genesis : Block) (rest : List Block)
    (calls : List (Call K)), node.storage.load K = .ok (genesis :: rest) →
    (∀ walk first more, Call.replaceChain walk (first :: more) ∈ calls →
      CollisionFree K (genesis.strings K ++ first.strings K)) →
    ∃ more, (node.run calls).storage = some (genesis :: more) := by
  intro h
  obtain ⟨more, hmore⟩ := h toyCrypto (toyNode [threeBurns]) threeBurns []
    [.replaceChain toyWalk [fourBurns, toyNext fourBurns [toyCoinbase 1]]] (by decide +kernel) (by
      intro walk first more hm
      simp only [List.mem_singleton, Call.replaceChain.injEq, List.cons.injEq] at hm
      rw [hm.2.1]
      unfold CollisionFree
      decide +kernel)
  have hrun : ((toyNode [threeBurns]).run [.replaceChain toyWalk [fourBurns, toyNext fourBurns [toyCoinbase 1]]]).storage
      = some [fourBurns, toyNext fourBurns [toyCoinbase 1]] := by decide +kernel
  rw [hrun, Option.some.injEq, List.cons.injEq] at hmore
  exact absurd hmore.1 (by decide +kernel)

end Caesar
