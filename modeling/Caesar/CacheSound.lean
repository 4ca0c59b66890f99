import Caesar.Cache
import Caesar.CoherenceSound

/-!
# When the cached chain is the stored one

Every call but the relay's makes the copy invalid under the lock that it stores
the chain with. So a valid copy is the stored chain, except while a call of
`handle_blocks` has stored its blocks and not yet called back.
-/

namespace Caesar

open Codec

/-! ## Calls that store nothing -/

section
variable {K : Crypto} {node : Node K}

theorem replaceChain_eq (walk : Walk K) (candidate : List Block) :
    node.replaceChain walk candidate = match node.replacement candidate with
      | .error e => (.error e, node)
      | .ok none => (.ok false, node)
      | .ok (some (chain, storage)) =>
        let revalidated := revalidateMempoolAfterReorg K walk node.mempool chain
        (revalidated.1.map fun _ => true, { node with storage := storage, mempool := revalidated.2 }) := rfl

theorem handleBlocks_eq_relayed (payload : Bytes) :
    node.handleBlocks payload = node.commit (do
      let storage ← node.relayed payload
      pure ((), match storage with
        | none => node
        | some storage => { node with storage := storage })) := by
  unfold Node.handleBlocks Node.relayed
  simp only [bind_assoc]
  congr 1
  refine bind_congr fun incoming => ?_
  split
  · rfl
  · simp only [bind_assoc]
    refine bind_congr fun chain => ?_
    split
    · rfl
    · simp only [bind_assoc]
      refine bind_congr fun utxos => ?_
      cases chainIssuance chain 0 with
      | none => rfl
      | some totalIssued =>
        simp only [bind_assoc]
        refine bind_congr fun st => ?_
        split
        · rfl
        · simp only [bind_assoc, pure_bind]

theorem stored_false {α : Type} {r : Result (Option α)} (h : Node.stored r = false) : r = .ok none ∨ ∃ e, r = .error e := by
  match r with
  | .error e => exact Or.inr ⟨e, rfl⟩
  | .ok none => exact Or.inl rfl

theorem call_storage {call : Call K} (h : node.stores call = false) : (node.call call).storage = node.storage := by
  cases call with
  | acceptTransaction tx =>
    show (node.acceptTransaction tx).2.storage = node.storage
    refine commit_cases (P := fun after => after.storage = node.storage) rfl fun a after hc => ?_
    obtain ⟨chain, u, t, hload, hr, ⟨-, rfl⟩ | ⟨-, pool, -, rfl⟩⟩ := acceptTransaction_ok (commit_ok.mpr hc)
    · rfl
    · rfl
  | commitMined candidate =>
    show (node.commitMined candidate).2.storage = node.storage
    refine commit_cases (P := fun after => after.storage = node.storage) rfl fun a after hc => ?_
    have hok : node.commitMined candidate = (.ok a, after) := commit_ok.mpr hc
    rw [Node.stores, hok] at h
    exact absurd h (by simp [Except.isOk, Except.toBool])
  | submitPoolSolution candidate =>
    show (node.submitPoolSolution candidate).2.storage = node.storage
    refine commit_cases (P := fun after => after.storage = node.storage) rfl fun a after hc => ?_
    have hok : node.submitPoolSolution candidate = (.ok a, after) := commit_ok.mpr hc
    rcases submitPoolSolution_ok hok with ⟨-, rfl⟩ | ⟨rfl, -⟩
    · rfl
    · rw [Node.stores, hok] at h
      exact absurd h (by simp [Except.toOption])
  | replaceChain walk candidate =>
    show (node.replaceChain walk candidate).2.storage = node.storage
    rw [replaceChain_eq]
    rcases stored_false h with hr | ⟨e, hr⟩
    · rw [hr]
    · rw [hr]
  | handleBlocks payload =>
    show (node.handleBlocks payload).2.storage = node.storage
    rw [handleBlocks_eq_relayed]
    rcases stored_false h with hr | ⟨e, hr⟩
    · rw [hr]
      rfl
    · rw [hr]
      rfl

end

/-! ## The invariant -/

namespace CachedNode

variable {K : Crypto} {c : CachedNode K}

/-- A valid copy is the stored chain while no callback is due. -/
def Coherent (c : CachedNode K) : Prop :=
  c.chainCacheValid = true → c.callbacks = 0 → c.node.storage.load K = .ok c.chainCache

theorem refresh_ok {fresh : CachedNode K} (h : c.refresh = .ok fresh) :
    fresh = c ∧ c.chainCacheValid = true ∨
      ∃ chain, c.node.storage.load K = .ok chain ∧ fresh = { c with chainCache := chain, chainCacheValid := true } := by
  rw [refresh] at h
  by_cases hv : c.chainCacheValid = true
  · rw [if_neg (by simp [hv]), pure_ok] at h
    exact Or.inl ⟨h.symm, hv⟩
  · rw [if_pos (by simpa using hv)] at h
    obtain ⟨chain, hload, h⟩ := bind_ok.mp h
    exact Or.inr ⟨chain, hload, (pure_ok.mp h).symm⟩

theorem Coherent.refresh {fresh : CachedNode K} (h : c.Coherent) (hf : c.refresh = .ok fresh) : fresh.Coherent := by
  rcases refresh_ok hf with ⟨rfl, -⟩ | ⟨chain, hload, rfl⟩
  · exact h
  · exact fun _ _ => hload

theorem Coherent.call (h : c.Coherent) (call : Call K) : (c.call call).Coherent := by
  unfold CachedNode.call
  by_cases hs : c.node.stores call = true
  · rw [if_pos hs]
    cases call with
    | handleBlocks payload => exact fun _ hc => absurd hc (Nat.succ_ne_zero _)
    | acceptTransaction tx => exact fun hv => absurd hv Bool.false_ne_true
    | commitMined candidate => exact fun hv => absurd hv Bool.false_ne_true
    | submitPoolSolution candidate => exact fun hv => absurd hv Bool.false_ne_true
    | replaceChain walk candidate => exact fun hv => absurd hv Bool.false_ne_true
  · rw [if_neg hs]
    intro hv hc
    show (c.node.call call).storage.load K = .ok c.chainCache
    rw [call_storage (by simpa using hs)]
    exact h hv hc

theorem Coherent.step (h : c.Coherent) (event : Event K) : (c.step event).Coherent := by
  cases event with
  | chain =>
    rw [CachedNode.step, CachedNode.chain]
    cases hf : c.refresh with
    | error e => exact h
    | ok fresh => exact h.refresh hf
  | height owned =>
    rw [CachedNode.step, CachedNode.height]
    split
    · exact h
    · cases hf : c.refresh with
      | error e => exact h
      | ok fresh =>
        have hfresh : fresh.Coherent := h.refresh hf
        exact hfresh
  | requestSyncFromPeer =>
    rw [CachedNode.step, CachedNode.requestSyncFromPeer]
    cases hf : c.refresh with
    | error e => exact h
    | ok fresh => exact h.refresh hf
  | call call => exact h.call call
  | invalidate => exact fun hv => absurd hv Bool.false_ne_true

theorem Coherent.run : ∀ (events : List (Event K)) {c : CachedNode K}, c.Coherent → (c.run events).Coherent
  | [], _, h => h
  | event :: rest, _, h => Coherent.run rest (h.step event)

/-- In every run, whenever the copy is valid and no call of `handle_blocks` is between storing its blocks and calling
back, the copy is the stored chain. -/
theorem valid_cache_is_stored (node : Node K) (chain : List Block) (events : List (Event K))
    (hvalid : ((started node chain).run events).chainCacheValid = true)
    (hcallbacks : ((started node chain).run events).callbacks = 0) :
    ((started node chain).run events).node.storage.load K = .ok ((started node chain).run events).chainCache :=
  Coherent.run events (fun hv => absurd hv Bool.false_ne_true) hvalid hcallbacks

def toyChain : List Block := [toyGenesis, toyFirst]

/-- A reader fills the copy, and the relay stores a block on top. -/
def toyWindow : CachedNode toyCrypto := (started (toyNode toyChain) toyChain).run
  [.chain, .call (.handleBlocks (blockList [toyNext toyFirst [toyCoinbase 2]]))]

def toyCalledBack : List (Event toyCrypto) :=
  [.chain, .call (.handleBlocks (blockList [toyNext toyFirst [toyCoinbase 2]])), .invalidate, .height true]

theorem valid_cache_is_stored_toy :
    ((started (toyNode toyChain) toyChain).run toyCalledBack).node.storage.load toyCrypto =
      .ok ((started (toyNode toyChain) toyChain).run toyCalledBack).chainCache := by
  have hvalid : ((started (toyNode toyChain) toyChain).run toyCalledBack).chainCacheValid = true := by decide +kernel
  have hcallbacks : ((started (toyNode toyChain) toyChain).run toyCalledBack).callbacks = 0 := by decide +kernel
  exact valid_cache_is_stored (toyNode toyChain) toyChain toyCalledBack hvalid hcallbacks

/-- Before the callback the copy is valid and lacks the block. -/
theorem cache_stale_before_callback : toyWindow.chainCacheValid = true ∧ toyWindow.chainCache = toyChain ∧
    toyWindow.node.storage.load toyCrypto = .ok (toyChain ++ [toyNext toyFirst [toyCoinbase 2]]) := by
  decide +kernel

end CachedNode

end Caesar
