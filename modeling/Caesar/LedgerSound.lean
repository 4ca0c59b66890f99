import Caesar.SupplySound

/-!
# Exact accounting and authorised spending

The transactions of the blocks after genesis, in order, form one sequence of
entries that the replay applies to the empty UTXO set. Counting how often a point
is created and spent in it tells exactly what the set holds.
-/

namespace Caesar

open Codec

section
variable {K : Crypto}

def ledger (chain : List Block) : List Transaction := chain.tail.flatMap Block.transactions

def Transaction.creates (K : Crypto) (tx : Transaction) : List (OutPoint × TransactionOutput) :=
  outputsAt (tx.id K) 0 tx.outputs

def Transaction.spends (tx : Transaction) : List OutPoint := if isCoinbaseTransaction tx then [] else tx.points

def createdCount (K : Crypto) (chain : List Block) (p : OutPoint) : Nat :=
  ((ledger chain).flatMap fun tx => (tx.creates K).map Prod.fst).count p

def spentCount (chain : List Block) (p : OutPoint) : Nat := ((ledger chain).flatMap Transaction.spends).count p

def lastCreated (K : Crypto) (chain : List Block) (p : OutPoint) : Option TransactionOutput :=
  ((((ledger chain).flatMap (Transaction.creates K)).filter fun c => c.1 = p).getLast?).map Prod.snd

theorem ledger_snoc {chain : List Block} (hne : chain ≠ []) (block : Block) :
    ledger (chain ++ [block]) = ledger chain ++ block.transactions := by
  simp [ledger, List.tail_append_of_ne_nil hne]

theorem created_ledger (chain : List Block) :
    Coins.created ((ledger chain).map (Transaction.entry K)) = (ledger chain).flatMap (Transaction.creates K) := by
  rw [Coins.created, List.flatMap_map]
  rfl

theorem spent_ledger (chain : List Block) :
    Coins.spent ((ledger chain).map (Transaction.entry K)) = (ledger chain).flatMap Transaction.spends := by
  rw [Coins.spent, List.flatMap_map]
  rfl

theorem Replay.coins {chain : List Block} {u : UTXOSet} {t : UInt64} (h : Replay K chain u t) :
    Coins.applyAll ((ledger chain).map (Transaction.entry K)) ∅ = some u := by
  induction h with
  | genesis hg => rfl
  | snoc hr ha ih =>
    rw [ledger_snoc hr.ne_nil, List.map_append, Coins.applyAll_append_some]
    exact ⟨_, ih, applyBlock_coins ha.applies⟩

theorem Replay.count {chain : List Block} {u : UTXOSet} {t : UInt64} (h : Replay K chain u t) (p : OutPoint) :
    createdCount K chain p = spentCount chain p + Coins.held u p := by
  have hc := Coins.applyAll_count h.coins p
  rw [created_ledger, spent_ledger, List.map_flatMap] at hc
  have hz : Coins.held (∅ : UTXOSet) p = 0 := if_neg Finmap.notMem_empty
  rw [hz] at hc
  exact hc

theorem Replay.lastCreated {chain : List Block} {u : UTXOSet} {t : UInt64} (h : Replay K chain u t) {p : OutPoint}
    {output : TransactionOutput} (hp : u.lookup p = some output) : lastCreated K chain p = some output := by
  have hl := Coins.applyAll_lookup h.coins p output hp
  rw [created_ledger, Finmap.lookup_empty, Option.or_none] at hl
  exact hl

theorem Replay.index_pos {chain : List Block} {u : UTXOSet} {t : UInt64} (h : Replay K chain u t) {i j : Nat}
    {block : Block} {tx : Transaction} (hi : 0 < i) (hb : chain[i]? = some block)
    (htx : block.transactions[j]? = some tx) (hc : isCoinbaseTransaction tx = false) : 0 < j := by
  obtain ⟨_, _, _, _, -, ha, -⟩ := h.appends hi hb
  obtain ⟨coinbase, rest, w, hbt, hcb, -⟩ := applyBlock_ok.mp ha.applies
  refine Nat.pos_of_ne_zero fun hj => ?_
  subst hj
  rw [hbt, List.getElem?_cons_zero, Option.some.injEq] at htx
  subst htx
  rw [(coinbase_true (applyCoinbase_ok.mp hcb).1).1] at hc
  cases hc

/-- In every prefix of an accepted chain a point was created as often as it was spent, or once more; then, and
only then, the rebuilt set holds it, with the output created last. Every input of a transaction that is not a
coinbase is unlocked by its own witness. -/
theorem accepted_ledger {chain : List Block} {r : ChainValidationResult}
    (h : validateAndRebuildChain K chain = .ok (some r)) :
    (∀ (n : Nat) (p : OutPoint),
      (createdCount K (chain.take n) p = spentCount (chain.take n) p ∨
        createdCount K (chain.take n) p = spentCount (chain.take n) p + 1) ∧
      (0 < n → ∃ u, rebuildUtxoSet K (chain.take n) = .ok u ∧
        (p ∈ u ↔ createdCount K (chain.take n) p = spentCount (chain.take n) p + 1) ∧
        ∀ output, u.lookup p = some output → lastCreated K (chain.take n) p = some output)) ∧
    ∀ (i j : Nat) (block : Block) (tx : Transaction), 0 < i → chain[i]? = some block →
      block.transactions[j]? = some tx → isCoinbaseTransaction tx = false →
      ∃ u, utxoBefore K chain i j = .ok (some u) ∧ tx.witness.length = tx.inputs.length ∧
        ∀ k input item, tx.inputs[k]? = some input → tx.witness[k]? = some item → Unlocks K tx u k input item := by
  have hr := rebuild_iff.mp h
  refine ⟨fun n p => ?_, ?_⟩
  · cases n with
    | zero => simp [createdCount, spentCount, ledger]
    | succ n =>
      obtain ⟨u, t, hn⟩ := hr.take (show 0 < n + 1 by omega)
      have hcount := hn.count p
      have hle := Coins.held_le_one u p
      refine ⟨by omega, fun _ => ⟨u, rebuildUtxoSet_ok.mpr ⟨t, hn⟩, ?_, fun output hp => hn.lastCreated hp⟩⟩
      rw [← Coins.held_eq_one]
      omega
  · intro i j block tx hi hb htx hc
    obtain ⟨u, u', hu, ha⟩ := hr.transaction hi (hr.index_pos hi hb htx hc) hb htx
    have hauth := authorized_of_validate (applyTransaction_ok.mp ha).2.1
    exact ⟨u, hu, hauth.length_eq, hauth.unlocks⟩

end

/-- The third block spends the coinbase of the second, and the result again. -/
theorem accepted_ledger_toy : ∃ u, rebuildUtxoSet toyCrypto [toyGenesis, toyFirst, toySecond] = .ok u ∧
    spentCount [toyGenesis, toyFirst, toySecond] ⟨(toyCoinbase 1).id toyCrypto, 0⟩ = 1 ∧
    (⟨(toyCoinbase 1).id toyCrypto, 0⟩ : OutPoint) ∉ u ∧
    (⟨(toySpend (toySpend (toyCoinbase 1) 5) 4).id toyCrypto, 0⟩ : OutPoint) ∈ u := by
  obtain ⟨u, t, hr⟩ := candidate_iff.mp toy_accepted
  have hledger := (accepted_ledger (rebuild_of_replay hr)).1 3
  obtain ⟨v, hv, hspent, -⟩ := (hledger ⟨(toyCoinbase 1).id toyCrypto, 0⟩).2 (by decide)
  obtain ⟨w, hw, hkept, -⟩ := (hledger ⟨(toySpend (toySpend (toyCoinbase 1) 5) 4).id toyCrypto, 0⟩).2 (by decide)
  obtain rfl := Except.ok.inj (hv.symm.trans hw)
  refine ⟨v, hv, by decide +kernel, ?_, hkept.mpr (by decide +kernel)⟩
  rw [hspent]
  decide +kernel

/-! ## The genesis block is not replayed -/

def strayGenesis : Block := toyBlock 0 Hash256.zero 0 [⟨1, [], [⟨Hash256.zero, 0⟩], [⟨1, [7]⟩], []⟩]

theorem genesis_not_authorised : ¬ ∀ (chain : List Block) (r : ChainValidationResult),
    validateAndRebuildChain toyCrypto chain = .ok (some r) → ∀ block ∈ chain, ∀ tx ∈ block.transactions,
      isCoinbaseTransaction tx = false → ∀ (k : Nat) (input : TransactionInput), tx.inputs[k]? = some input →
        ∃ item key message, tx.witness[k]? = some item ∧ publicKeyFromHex toyCrypto item.publicKey = .ok key ∧
          transactionSigningMessage tx k = .ok message ∧
          verifySignature toyCrypto key message item.signature = true := by
  intro h
  have hv : validateCandidateChain toyCrypto [strayGenesis] = .ok true := by decide +kernel
  obtain ⟨u, t, hr⟩ := candidate_iff.mp hv
  obtain ⟨item, key, message, hitem, -⟩ := h _ _ (rebuild_of_replay hr) strayGenesis (by simp)
    ⟨1, [], [⟨Hash256.zero, 0⟩], [⟨1, [7]⟩], []⟩ (by simp [strayGenesis, toyBlock]) (by decide) 0 ⟨Hash256.zero, 0⟩ rfl
  simp at hitem

end Caesar
