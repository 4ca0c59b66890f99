import Caesar.CoherenceSound
import Caesar.NonceSound

/-!
# What mining does to the pool

The block is built from a snapshot of the pool, and transactions may be admitted
until it is appended. Appending then empties the pool whatever the block holds:
nothing is lost exactly when nothing was admitted in between and the block took
the whole pool, or what it left out does not apply any more.
-/

namespace Caesar

open Codec

section
variable {K : Crypto}

/-! ## Validation only reads the points it spends -/

section
variable {u v : UTXOSet}

/-- What `u` has at the points, `v` has too. -/
def Shares (points : List OutPoint) (u v : UTXOSet) : Prop := ∀ k ∈ points, ∀ x, u.lookup k = some x → v.lookup k = some x

theorem sumInputs_shares : ∀ {inputs : List TransactionInput} {seen : Finset OutPoint} {sum s : UInt64},
    Shares (inputs.map TransactionInput.point) u v → sumInputs u seen sum inputs = some s →
    sumInputs v seen sum inputs = some s
  | [], _, _, _, _, h => h
  | input :: rest, seen, sum, s, hs, h => by
    unfold sumInputs at h ⊢
    split at h
    · cases h
    · rename_i hnew
      rw [if_neg hnew]
      split at h
      · cases h
      · rename_i previous hget
        have hgetv : v.get input.point = some previous := hs _ (by simp) _ hget
        split at h
        · cases h
        · rename_i hfit
          rw [hgetv]
          dsimp only
          rw [if_neg hfit]
          exact sumInputs_shares (fun k hk => hs k (List.mem_cons_of_mem _ hk)) h

theorem againstUtxo_shares {tx : Transaction} (hs : Shares tx.points u v)
    (h : validateTransactionAgainstUtxo tx u = true) : validateTransactionAgainstUtxo tx v = true := by
  unfold validateTransactionAgainstUtxo at h ⊢
  split at h
  · cases h
  · rename_i hvalid
    rw [if_neg hvalid]
    split at h
    · cases h
    · rename_i inputSum hsum
      rw [sumInputs_shares hs hsum]
      exact h

theorem verifyInputs_shares {tx : Transaction} : ∀ {i : Nat} {items : List (TransactionInput × PKey × Bytes × Bytes)},
    Shares (items.map fun item => item.1.point) u v → verifyInputs K tx u i items = .ok true →
    verifyInputs K tx v i items = .ok true
  | _, [], _, h => h
  | i, (input, key, data, signature) :: rest, hs, h => by
    unfold verifyInputs at h ⊢
    split at h
    · simp at h
    · rename_i previous hget
      have hgetv : v.get input.point = some previous := hs _ (by simp) _ hget
      rw [hgetv]
      dsimp only
      split at h
      · simp at h
      · rename_i hown
        rw [if_neg hown]
        obtain ⟨valid, hv, h⟩ := bind_ok.mp h
        refine bind_ok.mpr ⟨valid, hv, ?_⟩
        split at h
        · simp at h
        · rename_i hvt
          rw [if_neg hvt]
          exact verifyInputs_shares (fun k hk => hs k (List.mem_cons_of_mem _ hk)) h

theorem validateTransactionWitness_shares {tx : Transaction} (hs : Shares tx.points u v)
    (h : validateTransactionWitness K tx u = .ok true) : validateTransactionWitness K tx v = .ok true := by
  unfold validateTransactionWitness at h ⊢
  split at h
  · simp at h
  · rename_i hvalid
    rw [if_neg hvalid]
    split at h
    · simp at h
    · rename_i hlen
      rw [if_neg hlen]
      split at h
      · simp at h
      · rename_i keys hkeys
        unfold validateSignedTransactionOwnership at h ⊢
        simp only [if_neg hvalid] at h ⊢
        split at h
        · simp at h
        · rename_i hk
          rw [if_neg hk]
          split at h
          · simp at h
          · rename_i hd
            rw [if_neg hd]
            split at h
            · simp at h
            · rename_i hg
              rw [if_neg hg]
              split at h
              · simp at h
              · rename_i hu
                rw [againstUtxo_shares hs (by simpa using hu), if_neg (by simp)]
                refine verifyInputs_shares (fun k hk => hs k ?_) h
                obtain ⟨item, hitem, rfl⟩ := List.mem_map.mp hk
                exact List.mem_map_of_mem (List.of_mem_zip hitem).1

end

/-! ## Building, admitting and appending -/

namespace Node

/-- `block` is what one of the two miners makes of `node`; a pool miner chooses the nonce itself. -/
def Builds (node : Node K) (block : Block) : Prop :=
  (∃ recipient now built nonce, node.buildPoolCandidate recipient now = .ok built ∧
      block = { built with header := { built.header with nonce := nonce } }) ∨
    ∃ recipient maxAttempts now, node.mineCandidate recipient maxAttempts now = .ok block

def Submits (node : Node K) (block : Block) (after : Node K) : Prop :=
  node.submitPoolSolution block = (.ok true, after) ∨ node.commitMined block = (.ok (), after)

def Applies (node : Node K) (tx : Transaction) : Prop :=
  ∃ chain u, node.storage = some chain ∧ rebuildUtxoSet K chain = .ok u ∧ validateTransactionWitness K tx u = .ok true

def AppliesAfter (node : Node K) (block : Block) (tx : Transaction) : Prop :=
  ∃ chain u, node.storage = some chain ∧ rebuildUtxoSet K (chain ++ [block]) = .ok u ∧
    validateTransactionWitness K tx u = .ok true

/-- The order that the miners take from the pool has all of it. -/
def Orders (node : Node K) : Prop :=
  ∃ chain u ordered, node.storage.load K = .ok chain ∧ rebuildUtxoSet K chain = .ok u ∧
    node.mempool.orderedTransactions u = .ok ordered ∧ ordered.Perm node.mempool.snapshot

def Plain (node : Node K) : Prop := ∀ tx ∈ node.mempool.snapshot, isCoinbaseTransaction tx = false

end Node

theorem Submits.mines {node after : Node K} {block : Block} (h : node.Submits block after) : Mines node block after := by
  rcases h with h | h
  · exact (submitPoolSolution_ok h).elim (fun hf => absurd hf.1 (by simp)) And.right
  · exact commitMined_ok h

theorem updateMerkleRoot_transactions {block updated : Block} (h : block.updateMerkleRoot K = .ok updated) :
    updated.transactions = block.transactions := by
  obtain ⟨root, witness, -, -, rfl⟩ := updateMerkleRoot_ok h
  rfl

theorem mineBlock_transactions {block mined : Block} {start attempts : UInt64}
    (h : mineBlock K block start attempts = .ok (some mined)) : mined.transactions = block.transactions := by
  rw [mineBlock_eq, Except.ok.injEq] at h
  obtain ⟨found, -, rfl⟩ := Option.map_eq_some_iff.mp h
  rfl

theorem buildCandidate_ok {node : Node K} {recipient : Bytes} {now : UInt64} {block : Block}
    (h : node.buildCandidate recipient now = .ok block) : ∃ chain u coinbase ordered,
      node.storage.load K = .ok chain ∧ rebuildUtxoSet K chain = .ok u ∧
      node.mempool.orderedTransactions u = .ok ordered ∧ block.transactions = coinbase :: ordered := by
  obtain ⟨chain, hload, h⟩ := bind_ok.mp h
  cases hlast : chain.getLast? with
  | none => simp [hlast] at h
  | some previous =>
    simp only [hlast] at h
    obtain ⟨u, hu, h⟩ := bind_ok.mp h
    obtain ⟨-, h⟩ := ite_error_ok.mp h
    obtain ⟨coinbase, -, h⟩ := bind_ok.mp h
    obtain ⟨ordered, ho, h⟩ := bind_ok.mp h
    exact ⟨chain, u, coinbase, ordered, hload, hu, ho, updateMerkleRoot_transactions h⟩

theorem builds_ok {node : Node K} {block : Block} (h : node.Builds block) : ∃ chain u coinbase ordered,
    node.storage.load K = .ok chain ∧ rebuildUtxoSet K chain = .ok u ∧
    node.mempool.orderedTransactions u = .ok ordered ∧ block.transactions = coinbase :: ordered := by
  rcases h with ⟨recipient, now, built, nonce, h, rfl⟩ | ⟨recipient, attempts, now, h⟩
  · obtain ⟨-, h⟩ := ite_not_fail.mp h
    obtain ⟨-, h⟩ := ite_error_ok.mp h
    obtain ⟨chain, u, coinbase, ordered, hload, hu, ho, hb⟩ := buildCandidate_ok h
    exact ⟨chain, u, coinbase, ordered, hload, hu, ho, hb⟩
  · obtain ⟨-, h⟩ := ite_not_fail.mp h
    obtain ⟨-, h⟩ := ite_error_ok.mp h
    obtain ⟨candidate, hc, h⟩ := bind_ok.mp h
    obtain ⟨mined, hm, h⟩ := bind_ok.mp h
    cases mined with
    | none => simp at h
    | some mined =>
      obtain rfl := pure_ok.mp h
      rw [mineBlock_transactions hm]
      exact buildCandidate_ok hc

theorem plain_accept {u : UTXOSet} {pool after : Mempool K} {tx : Transaction} {reason : MempoolRejectReason}
    (hp : ∀ tx ∈ pool.snapshot, isCoinbaseTransaction tx = false) (hc : isCoinbaseTransaction tx = false)
    (h : pool.accept tx u = .ok (reason, after)) : ∀ tx ∈ after.snapshot, isCoinbaseTransaction tx = false := by
  rcases accept_ok h with ⟨-, rfl⟩ | ⟨-, hsnap, -⟩
  · exact hp
  · rw [hsnap, List.forall_mem_cons]
    exact ⟨hc, hp⟩

theorem Step.plain {node after : Node K} {call : Call K} (hs : Step node call after) (h : node.Plain) :
    after.Plain := by
  cases hs with
  | stay => exact h
  | accept _ _ hc hacc => exact plain_accept h hc hacc
  | mine _ hm =>
    obtain ⟨chain, u, t, u', t', -, -, -, rfl⟩ := hm
    simp [Node.Plain, empty_snapshot]
  | replace _ hr _ _ =>
    exact revalidate_induction (Q := fun pool => ∀ tx ∈ pool.snapshot, isCoinbaseTransaction tx = false)
      (fun pool he => by simp [he]) hr (fun htx hp hacc => plain_accept hp (h _ htx) hacc) _
  | relay _ _ _ _ _ => exact h

theorem plain_run : ∀ (calls : List (Call K)) {node : Node K}, node.Plain → (node.run calls).Plain
  | [], _, h => h
  | call :: calls, node, h => plain_run calls ((call_step node call).plain h)

/-- A call that submits a transaction leaves everything, or puts it in the pool, valid after what is there. -/
theorem acceptTransaction_cases (node : Node K) (tx : Transaction) : node.call (.acceptTransaction tx) = node ∨
    ∃ chain u pool w, node.storage.load K = .ok chain ∧ rebuildUtxoSet K chain = .ok u ∧
      isCoinbaseTransaction tx = false ∧ node.mempool.contains (tx.id K) = false ∧
      node.mempool.buildEffectiveUtxo u = .ok (some w) ∧ validateTransactionWitness K tx w = .ok true ∧
      pool.snapshot = tx :: node.mempool.snapshot ∧ node.call (.acceptTransaction tx) = { node with mempool := pool } := by
  generalize hafter : node.call (.acceptTransaction tx) = after
  have hstep : Step node (.acceptTransaction tx) after := hafter ▸ call_step node _
  cases hstep with
  | stay => exact Or.inl rfl
  | mine hcall _ => simp at hcall
  | @accept _ chain u t reason pool hload hr hc hacc =>
    rcases accept_ok hacc with ⟨-, rfl⟩ | ⟨-, hsnap, -, hnew, -, -, w, heff, hwit⟩
    · exact Or.inl rfl
    · exact Or.inr ⟨chain, u, pool, w, hload, rebuildUtxoSet_ok.mpr ⟨t, hr⟩, hc, hnew, heff, hwit, hsnap, rfl⟩

theorem accepts_keep : ∀ (txs : List Transaction) (node : Node K),
    (node.run (txs.map .acceptTransaction)).storage = node.storage ∧
      ∀ tx ∈ node.mempool.snapshot, tx ∈ (node.run (txs.map .acceptTransaction)).mempool.snapshot
  | [], _ => ⟨rfl, fun _ h => h⟩
  | tx :: txs, node => by
    obtain ⟨hs, hm⟩ := accepts_keep txs (node.call (.acceptTransaction tx))
    show ((node.call (.acceptTransaction tx)).run _).storage = _ ∧
      ∀ p ∈ _, p ∈ ((node.call (.acceptTransaction tx)).run _).mempool.snapshot
    rcases acceptTransaction_cases node tx with he | ⟨chain, u, pool, w, -, -, -, -, -, -, hsnap, he⟩
    · rw [he] at hs hm ⊢
      exact ⟨hs, hm⟩
    · rw [he] at hs hm ⊢
      exact ⟨hs, fun p hp => hm p (by rw [hsnap]; exact List.mem_cons_of_mem _ hp)⟩

/-- After some submissions the pool is as it was, or has a transaction that was admitted to it as it was. -/
theorem accepts_cases : ∀ (txs : List Transaction) (node : Node K),
    (node.run (txs.map .acceptTransaction)).mempool = node.mempool ∨
      ∃ tx ∈ (node.run (txs.map .acceptTransaction)).mempool.snapshot, ∃ chain u w, node.storage.load K = .ok chain ∧
        rebuildUtxoSet K chain = .ok u ∧ isCoinbaseTransaction tx = false ∧
        node.mempool.contains (tx.id K) = false ∧ node.mempool.buildEffectiveUtxo u = .ok (some w) ∧
        validateTransactionWitness K tx w = .ok true
  | [], _ => Or.inl rfl
  | tx :: txs, node => by
    show ((node.call (.acceptTransaction tx)).run _).mempool = _ ∨
      ∃ p ∈ ((node.call (.acceptTransaction tx)).run _).mempool.snapshot, _
    rcases acceptTransaction_cases node tx with he | ⟨chain, u, pool, w, hload, hu, hc, hnew, heff, hwit, hsnap, he⟩
    · rw [he]
      exact accepts_cases txs node
    · refine Or.inr ⟨tx, ?_, chain, u, w, hload, hu, hc, hnew, heff, hwit⟩
      exact (accepts_keep txs _).2 tx (by rw [he, hsnap]; simp)

theorem applies_after_block {chain : List Block} {u u' w : UTXOSet} {t t' : UInt64} {block : Block}
    {coinbase tx : Transaction} {ordered : List Transaction} (ha : Appends K chain u t block u' t')
    (hb : block.transactions = coinbase :: ordered)
    (hw : Coins.applyAll (ordered.map (Transaction.entry K)) u = some w)
    (hv : validateTransactionWitness K tx w = .ok true) : validateTransactionWitness K tx u' = .ok true := by
  have hall := applyBlock_coins ha.applies
  obtain ⟨c, rest, x, hb', hc, -⟩ := applyBlock_ok.mp ha.applies
  obtain ⟨rfl, rfl⟩ := List.cons.inj (hb.symm.trans hb')
  rw [hb, List.map_cons, Coins.applyAll_cons_some] at hall
  obtain ⟨y, hy, hrest⟩ := hall
  -- a coinbase takes nothing away
  obtain ⟨z, hz, hadd⟩ := Coins.apply_eq_some.mp hy
  have hnone : (coinbase.entry K).inputs = [] := by
    simp [Transaction.entry, (coinbase_true (applyCoinbase_ok.mp hc).1).1]
  rw [hnone] at hz
  obtain rfl := Option.some.inj hz
  have hsub := Coins.applyAll_sub (Coins.addAll_sub hadd) hw hrest
  exact validateTransactionWitness_shares (fun k _ x => hsub k x) hv

theorem coinbase_of_appends {chain : List Block} {u u' : UTXOSet} {t t' : UInt64} {block : Block}
    {coinbase : Transaction} {ordered : List Transaction} (ha : Appends K chain u t block u' t')
    (hb : block.transactions = coinbase :: ordered) : isCoinbaseTransaction coinbase = true := by
  obtain ⟨c, rest, x, hb', hc, -⟩ := applyBlock_ok.mp ha.applies
  obtain ⟨rfl, rfl⟩ := List.cons.inj (hb.symm.trans hb')
  exact (coinbase_true (applyCoinbase_ok.mp hc).1).1

theorem not_mem_block {block : Block} {coinbase tx : Transaction} {ordered : List Transaction}
    (hb : block.transactions = coinbase :: ordered) (hcb : isCoinbaseTransaction coinbase = true)
    (hc : isCoinbaseTransaction tx = false) (hn : tx ∉ ordered) : tx ∉ block.transactions := by
  rw [hb, List.mem_cons, not_or]
  refine ⟨fun he => ?_, hn⟩
  rw [he, hcb] at hc
  cases hc

/-- What is admitted to the pool that a block was built from is left out of the block, and valid after it. -/
theorem admitted_left_out {node : Node K} (hplain : node.Plain) {chain : List Block} {u u' w : UTXOSet} {t t' : UInt64}
    {block : Block} {coinbase tx : Transaction} {ordered : List Transaction} (ha : Appends K chain u t block u' t')
    (hb : block.transactions = coinbase :: ordered) (ho : node.mempool.orderedTransactions u = .ok ordered)
    (hc : isCoinbaseTransaction tx = false) (hnew : node.mempool.contains (tx.id K) = false)
    (heff : node.mempool.buildEffectiveUtxo u = .ok (some w)) (hwit : validateTransactionWitness K tx w = .ok true) :
    tx ∉ block.transactions ∧ validateTransactionWitness K tx u' = .ok true := by
  obtain ⟨found, hfound, hperm, hw⟩ := buildEffectiveUtxo_cases hplain heff
  rw [ho, Except.ok.injEq] at hfound
  subst hfound
  have hout : tx ∉ ordered := by
    intro hmem
    rw [contains_iff.mpr ⟨tx, hperm.subset hmem, rfl⟩] at hnew
    cases hnew
  exact ⟨not_mem_block hb (coinbase_of_appends ha hb) hc hout, applies_after_block ha hb hw hwit⟩

/-- A block built from any reachable node and appended after any submissions: no transaction is lost exactly when the
pool did not change in between and its order was complete, or nothing of it applies after the block. -/
theorem mining_keeps_pool_iff {start after : Node K} (hempty : start.mempool = Mempool.empty K) (calls : List (Call K))
    {block : Block} (hbuild : (start.run calls).Builds block) (txs : List Transaction)
    (hsubmit : ((start.run calls).run (txs.map .acceptTransaction)).Submits block after) :
    (∀ tx ∈ ((start.run calls).run (txs.map .acceptTransaction)).mempool.snapshot, tx ∉ block.transactions →
        after.Applies tx → tx ∈ after.mempool.snapshot) ↔
      ((start.run calls).run (txs.map .acceptTransaction)).mempool = (start.run calls).mempool ∧
        ((start.run calls).Orders ∨ ∀ tx ∈ (start.run calls).mempool.snapshot, ¬ (start.run calls).AppliesAfter block tx) := by
  have hplain : (start.run calls).Plain := plain_run calls (by simp [Node.Plain, hempty, empty_snapshot])
  generalize start.run calls = node at *
  obtain ⟨chain, u, coinbase, ordered, hload, hu, ho, hb⟩ := builds_ok hbuild
  obtain ⟨chain', v, t, u', t', hload', hr, ha, rfl⟩ := Submits.mines hsubmit
  rw [(accepts_keep txs node).1, hload, Except.ok.injEq] at hload'
  subst hload'
  obtain ⟨t₀, hr₀⟩ := rebuildUtxoSet_ok.mp hu
  obtain ⟨rfl, rfl⟩ := hr₀.unique hr
  have hcb := coinbase_of_appends ha hb
  have hstore := (load_ok.mp hload).1
  have happlies : ∀ tx, node.AppliesAfter block tx ↔ Node.Applies { node.run (txs.map .acceptTransaction) with
      storage := some (chain ++ [block]), mempool := Mempool.empty K } tx := by
    intro tx
    simp only [Node.AppliesAfter, Node.Applies, hstore, Option.some.injEq, exists_and_left, exists_eq_left']
  refine ⟨?_, ?_⟩
  · intro hkeep
    have hlost : ∀ tx ∈ (node.run (txs.map .acceptTransaction)).mempool.snapshot, tx ∉ block.transactions →
        ¬ Node.Applies { node.run (txs.map .acceptTransaction) with
          storage := some (chain ++ [block]), mempool := Mempool.empty K } tx := by
      intro tx htx hn happ
      have := hkeep tx htx hn happ
      rw [empty_snapshot] at this
      cases this
    have hsame : (node.run (txs.map .acceptTransaction)).mempool = node.mempool := by
      rcases accepts_cases txs node with hsame | ⟨tx, htx, chain₁, u₁, w, hload₁, hu₁, hc, hnew, heff, hwit⟩
      · exact hsame
      · -- the first one admitted was valid after the pool, so it is after the block
        rw [hload, Except.ok.injEq] at hload₁
        subst hload₁
        rw [hu, Except.ok.injEq] at hu₁
        subst hu₁
        obtain ⟨hout, hvalid⟩ := admitted_left_out hplain ha hb ho hc hnew heff hwit
        exact absurd ⟨chain ++ [block], u', rfl, rebuildUtxoSet_ok.mpr ⟨t', .snoc hr ha⟩, hvalid⟩ (hlost tx htx hout)
    refine ⟨hsame, ?_⟩
    by_cases hall : ordered.Perm node.mempool.snapshot
    · exact Or.inl ⟨chain, u, ordered, hload, hu, ho, hall⟩
    · refine Or.inr fun tx htx => (happlies tx).not.mpr (hlost tx (hsame ▸ htx) (not_mem_block hb hcb (hplain tx htx) ?_))
      rcases orderLoop_cases (pending_orderable _) (taking_start (pending_orderable _)) ho with rfl | ⟨hp, -⟩
      · exact List.not_mem_nil
      · exact absurd (hp.trans (pending_snapshot _)) hall
  · intro h tx htx hn happ
    obtain ⟨hsame, hall | hnone⟩ := h
    · obtain ⟨chain₁, u₁, ordered₁, hload₁, hu₁, ho₁, hperm⟩ := hall
      rw [hload, Except.ok.injEq] at hload₁
      subst hload₁
      rw [hu, Except.ok.injEq] at hu₁
      subst hu₁
      rw [ho, Except.ok.injEq] at ho₁
      subst ho₁
      rw [hsame] at htx
      rw [hb] at hn
      exact absurd (List.mem_cons_of_mem _ (hperm.symm.subset htx)) hn
    · rw [hsame] at htx
      exact absurd ((happlies tx).mpr happ) (hnone tx htx)

end

def toyTemplate (txs : List Transaction) : Block := toyNext toyFirst (toyCoinbase 2 :: txs)

theorem toyTemplate_builds {node : Node toyCrypto} {txs : List Transaction}
    (h : node.buildPoolCandidate toyAddress 2 = .ok (toyTemplate txs)) : node.Builds (toyTemplate txs) :=
  Or.inl ⟨toyAddress, 2, toyTemplate txs, (toyTemplate txs).header.nonce, h, rfl⟩

theorem submits_of {K : Crypto} {node : Node K} {block : Block} (h : (node.submitPoolSolution block).1 = .ok true) :
    node.Submits block (node.submitPoolSolution block).2 :=
  Or.inl (Prod.ext h rfl)

/-- The node just before a block is submitted, `calls` before it was built and `txs` since then. -/
def toyBefore (calls : List (Call toyCrypto)) (txs : List Transaction) : Node toyCrypto :=
  ((toyNode [toyGenesis, toyFirst]).run calls).run (txs.map .acceptTransaction)

def toyAfter (calls : List (Call toyCrypto)) (txs : List Transaction) (block : Block) : Node toyCrypto :=
  ((toyBefore calls txs).submitPoolSolution block).2

theorem mining_keeps_pool_toy : (toyBefore [.acceptTransaction toyPooled] []).mempool.snapshot = [toyPooled] ∧
    ((∀ tx ∈ (toyBefore [.acceptTransaction toyPooled] []).mempool.snapshot,
        tx ∉ (toyTemplate [toyPooled]).transactions →
        (toyAfter [.acceptTransaction toyPooled] [] (toyTemplate [toyPooled])).Applies tx →
        tx ∈ (toyAfter [.acceptTransaction toyPooled] [] (toyTemplate [toyPooled])).mempool.snapshot) ↔
      (toyBefore [.acceptTransaction toyPooled] []).mempool =
          ((toyNode [toyGenesis, toyFirst]).run [.acceptTransaction toyPooled]).mempool ∧
        (((toyNode [toyGenesis, toyFirst]).run [.acceptTransaction toyPooled]).Orders ∨
          ∀ tx ∈ ((toyNode [toyGenesis, toyFirst]).run [.acceptTransaction toyPooled]).mempool.snapshot,
            ¬ ((toyNode [toyGenesis, toyFirst]).run [.acceptTransaction toyPooled]).AppliesAfter
              (toyTemplate [toyPooled]) tx)) := by
  have hbuild : ((toyNode [toyGenesis, toyFirst]).run [.acceptTransaction toyPooled]).Builds
      (toyTemplate [toyPooled]) := toyTemplate_builds (by decide +kernel)
  have hsubmit : (toyBefore [.acceptTransaction toyPooled] []).Submits (toyTemplate [toyPooled])
      (toyAfter [.acceptTransaction toyPooled] [] (toyTemplate [toyPooled])) := submits_of (by decide +kernel)
  have hpool : (toyBefore [.acceptTransaction toyPooled] []).mempool.snapshot = [toyPooled] := by decide +kernel
  exact ⟨hpool, mining_keeps_pool_iff rfl [.acceptTransaction toyPooled] hbuild [] hsubmit⟩

/-! ## A transaction admitted while a block is mined -/

theorem mining_drops_admitted : ¬ ∀ (K : Crypto) (start after : Node K) (calls : List (Call K)) (block : Block)
    (txs : List Transaction), start.mempool = Mempool.empty K → (start.run calls).Builds block →
    ((start.run calls).run (txs.map .acceptTransaction)).Submits block after →
    ∀ tx ∈ ((start.run calls).run (txs.map .acceptTransaction)).mempool.snapshot, tx ∉ block.transactions →
      after.Applies tx → tx ∈ after.mempool.snapshot := by
  intro h
  -- the transaction arrives after the empty block was built
  have hkept := h toyCrypto (toyNode [toyGenesis, toyFirst]) (toyAfter [] [toyPooled] (toyTemplate [])) []
    (toyTemplate []) [toyPooled] rfl (toyTemplate_builds (by decide +kernel)) (submits_of (by decide +kernel))
    toyPooled (by decide +kernel) (by decide +kernel)
  have hstore : (toyAfter [] [toyPooled] (toyTemplate [])).storage = some [toyGenesis, toyFirst, toyTemplate []] := by
    decide +kernel
  have hvalid : (rebuildUtxoSet toyCrypto [toyGenesis, toyFirst, toyTemplate []] >>=
      validateTransactionWitness toyCrypto toyPooled) = .ok true := by decide +kernel
  have hnil : (toyAfter [] [toyPooled] (toyTemplate [])).mempool.snapshot = [] := by decide +kernel
  obtain ⟨u, hu, hv⟩ := bind_ok.mp hvalid
  have hmem := hkept ⟨_, u, hstore, hu, hv⟩
  rw [hnil] at hmem
  cases hmem

end Caesar
