import Caesar.Chain
import Caesar.UtxoSound

/-!
# Replays

`Replay K chain u t` says what an accepted chain is: a genesis block, and then
one block at a time that passes its own checks, extends what came before, and
applies to the UTXO set so far. `rebuild_iff` shows that the replay loop of the
validator decides exactly this; the step for one more block (`rebuild_snoc`) is
what the incremental validator checks.
-/

namespace Caesar

open Codec

section
variable {K : Crypto}

/-! ## Blocks as entries -/

theorem ite_not_none {c : Bool} {α : Type} {x : Result (Option α)} {r : α} :
    (if !c then pure none else x) = .ok (some r) ↔ c = true ∧ x = .ok (some r) := by
  cases c <;> simp

theorem ifSome_ok {α β : Type} {x : Result (Option α)} {f : α → Result (Option β)} {r : β} :
    ifSome x f = .ok (some r) ↔ ∃ a, x = .ok (some a) ∧ f a = .ok (some r) := by
  rw [ifSome, bind_ok]
  refine ⟨?_, ?_⟩
  · intro hx
    obtain ⟨a, ha, h⟩ := hx
    cases a with
    | none => simp at h
    | some a => exact ⟨a, ha, h⟩
  · intro hx
    obtain ⟨a, ha, h⟩ := hx
    exact ⟨some a, ha, h⟩

theorem applyTransaction_ok {tx : Transaction} {u u' : UTXOSet} : applyTransaction K tx u = .ok (some u') ↔
    isCoinbaseTransaction tx = false ∧ validateTransactionWitness K tx u = .ok true ∧ tx.BaseFits uint32Max ∧
      Coins.apply (tx.entry K) u = some u' := by
  unfold applyTransaction
  by_cases hc : isCoinbaseTransaction tx = true
  · simp [hc]
  · have hc' : isCoinbaseTransaction tx = false := by simpa using hc
    have hpoints : (tx.entry K).inputs = tx.inputs.map TransactionInput.point := by
      simp [Transaction.entry, hc', Transaction.points]
    simp only [hc', Bool.false_eq_true, ite_false, true_and, bind_ok, ite_not_none, Coins.apply_eq_some, hpoints,
      spendInputs_eq]
    refine ⟨?_, ?_⟩
    · intro hx
      obtain ⟨valid, hv, rfl, h⟩ := hx
      cases hs : Coins.spendAll (tx.inputs.map TransactionInput.point) u with
      | none => simp [hs] at h
      | some w =>
        simp only [hs, bind_ok, txid_ok, pure_ok] at h
        obtain ⟨h, ⟨hf, rfl⟩, ha⟩ := h
        rw [addOutputs_eq (by have := hf.outputs; unfold uint32Max at this; omega)] at ha
        exact ⟨hv, hf, w, rfl, ha⟩
    · intro hx
      obtain ⟨hv, hf, w, hs, ha⟩ := hx
      refine ⟨true, hv, rfl, ?_⟩
      simp only [hs, bind_ok, txid_ok, pure_ok]
      refine ⟨_, ⟨hf, rfl⟩, ?_⟩
      rw [addOutputs_eq (by have := hf.outputs; unfold uint32Max at this; omega)]
      exact ha

theorem applyCoinbase_ok {tx : Transaction} {height : UInt64} {u u' : UTXOSet} :
    applyCoinbase K tx height u = .ok (some u') ↔
      validateCoinbaseTransaction tx height = true ∧ tx.BaseFits uint32Max ∧ Coins.apply (tx.entry K) u = some u' := by
  unfold applyCoinbase
  by_cases hv : validateCoinbaseTransaction tx height = true
  · obtain ⟨hc, -, output, ho, -⟩ := coinbase_true hv
    have hin : (tx.entry K).inputs = [] := by simp [Transaction.entry, hc]
    have hlen : 0 + tx.outputs.length ≤ 2 ^ 32 := by simp [ho]
    simp only [hv, Bool.not_true, Bool.false_eq_true, ite_false, bind_ok, txid_ok, pure_ok, Coins.apply_eq_some, hin,
      true_and, Coins.spendAll, Option.some.injEq]
    refine ⟨?_, ?_⟩
    · intro hx
      obtain ⟨_, ⟨hf, rfl⟩, ha⟩ := hx
      rw [addOutputs_eq hlen] at ha
      exact ⟨hf, u, rfl, ha⟩
    · intro hx
      obtain ⟨hf, _, rfl, ha⟩ := hx
      refine ⟨_, ⟨hf, rfl⟩, ?_⟩
      rw [addOutputs_eq hlen]
      exact ha
  · simp [hv]

theorem applyTransactions_cons {tx : Transaction} {rest : List Transaction} {u u' : UTXOSet} :
    applyTransactions K (tx :: rest) u = .ok (some u') ↔
      ∃ w, applyTransaction K tx u = .ok (some w) ∧ applyTransactions K rest w = .ok (some u') := by
  rw [applyTransactions, ifSome_ok]

theorem applyTransactions_append : ∀ {l r : List Transaction} {u u' : UTXOSet},
    applyTransactions K (l ++ r) u = .ok (some u') ↔
      ∃ w, applyTransactions K l u = .ok (some w) ∧ applyTransactions K r w = .ok (some u')
  | [], r, u, u' => by simp [applyTransactions]
  | tx :: l, r, u, u' => by
    simp only [List.cons_append, applyTransactions_cons, applyTransactions_append (l := l)]
    refine ⟨?_, ?_⟩
    · intro hx
      obtain ⟨w, hw, x, hx, h⟩ := hx
      exact ⟨x, ⟨w, hw, hx⟩, h⟩
    · intro hx
      obtain ⟨x, ⟨w, hw, hx⟩, h⟩ := hx
      exact ⟨w, hw, x, hx, h⟩

theorem applyTransactions_coins : ∀ {txs : List Transaction} {u u' : UTXOSet},
    applyTransactions K txs u = .ok (some u') → Coins.applyAll (txs.map (Transaction.entry K)) u = some u'
  | [], u, u', h => by simpa [applyTransactions, Coins.applyAll] using h
  | tx :: rest, u, u', h => by
    obtain ⟨w, hw, h⟩ := applyTransactions_cons.mp h
    rw [List.map_cons, Coins.applyAll_cons_some]
    exact ⟨w, (applyTransaction_ok.mp hw).2.2.2, applyTransactions_coins h⟩

theorem applyBlock_ok {block : Block} {u u' : UTXOSet} :
    applyBlockTransactionsInPlaceAfterBasicValidation K block u = .ok (some u') ↔
      ∃ coinbase rest w, block.transactions = coinbase :: rest ∧
        applyCoinbase K coinbase block.header.height u = .ok (some w) ∧ applyTransactions K rest w = .ok (some u') := by
  unfold applyBlockTransactionsInPlaceAfterBasicValidation
  cases hb : block.transactions with
  | nil => simp
  | cons coinbase rest =>
    simp only [ifSome_ok]
    refine ⟨?_, ?_⟩
    · intro hx
      obtain ⟨w, hw, h⟩ := hx
      exact ⟨coinbase, rest, w, rfl, hw, h⟩
    · intro hx
      obtain ⟨c, r, w, he, hw, h⟩ := hx
      obtain ⟨rfl, rfl⟩ := List.cons.inj he
      exact ⟨w, hw, h⟩

theorem applyBlock_coins {block : Block} {u u' : UTXOSet}
    (h : applyBlockTransactionsInPlaceAfterBasicValidation K block u = .ok (some u')) :
    Coins.applyAll (block.transactions.map (Transaction.entry K)) u = some u' := by
  obtain ⟨coinbase, rest, w, hb, hc, hr⟩ := applyBlock_ok.mp h
  rw [hb, List.map_cons, Coins.applyAll_cons_some]
  exact ⟨w, (applyCoinbase_ok.mp hc).2.2, applyTransactions_coins hr⟩

theorem applyBlock_height {block : Block} {u u' : UTXOSet}
    (h : applyBlockTransactionsInPlaceAfterBasicValidation K block u = .ok (some u')) : block.header.height ≠ 0 := by
  obtain ⟨coinbase, rest, w, hb, hc, hr⟩ := applyBlock_ok.mp h
  exact (coinbase_true (applyCoinbase_ok.mp hc).1).2.1

theorem issuance_cons {block : Block} {coinbase : Transaction} {rest : List Transaction}
    (hb : block.transactions = coinbase :: rest) (hc : isCoinbaseTransaction coinbase = true) (t : UInt64) :
    addCoinbaseIssuance block t = addIssuedOutputs coinbase.outputs t := by
  unfold addCoinbaseIssuance
  rw [hb]
  simp only [hc, Bool.not_true, Bool.false_eq_true, ite_false]

theorem applyCanonical_ok {block : Block} {u u' : UTXOSet} :
    applyBlockTransactionsCanonical K block u = .ok (some u') ↔ block.validateBasic K = .ok true ∧
      applyBlockTransactionsInPlaceAfterBasicValidation K block u = .ok (some u') := by
  simp only [applyBlockTransactionsCanonical, bind_ok, ite_not_none]
  refine ⟨?_, ?_⟩
  · intro hx
    obtain ⟨b, hb, rfl, h⟩ := hx
    exact ⟨hb, h⟩
  · intro hx
    obtain ⟨hb, h⟩ := hx
    exact ⟨true, hb, rfl, h⟩

/-! ## Positions -/

theorem collectIntervals_append {chain more : List Block} : ∀ {is : List Nat}, (∀ i ∈ is, i < chain.length) →
    collectIntervals (chain ++ more) is = collectIntervals chain is
  | [], _ => rfl
  | i :: is, h => by
    have hi : i < chain.length := h i (by simp)
    have ih : collectIntervals (chain ++ more) is = collectIntervals chain is :=
      collectIntervals_append fun j hj => h j (by simp [hj])
    simp only [collectIntervals, List.getElem?_append_left hi,
      List.getElem?_append_left (show i - 1 < chain.length by omega), ih]

/-- The difficulty at a position looks only at the blocks before it. -/
theorem expectedDifficulty_append {chain more : List Block} {position : Nat} (h : position ≤ chain.length) :
    expectedDifficultyAtPosition (chain ++ more) position = expectedDifficultyAtPosition chain position := by
  unfold expectedDifficultyAtPosition
  by_cases h0 : position = 0
  · subst h0; simp
  · have hgt : ¬ position > (chain ++ more).length := by simp; omega
    have hgt' : ¬ position > chain.length := by omega
    have hcol : position ≥ czrDifficultyWindow + 1 →
        collectIntervals (chain ++ more) (List.range' (position - czrDifficultyWindow) czrDifficultyWindow) =
          collectIntervals chain (List.range' (position - czrDifficultyWindow) czrDifficultyWindow) := by
      intro hp
      refine collectIntervals_append fun i hi => ?_
      have := (List.mem_range'_1.mp hi).2
      omega
    simp only [hgt, hgt', List.getElem?_append_left (show position - 1 < chain.length by omega)]
    by_cases hp : position < czrDifficultyWindow + 1
    · simp only [hp, ite_true]
    · simp only [hcol (by omega)]

def Extends (K : Crypto) (chain : List Block) (block : Block) : Prop :=
  ∃ previous, chain.getLast? = some previous ∧ block.header.height = previous.header.height + 1 ∧
    block.header.previousHash = previous.hash K ∧ ¬ block.header.timestamp < previous.header.timestamp ∧
    block.header.difficulty = expectedNextDifficulty chain

theorem position_append {chain more : List Block} {i : Nat} (h : i < chain.length) :
    validateBlockPositionWithChain K (chain ++ more) i = validateBlockPositionWithChain K chain i := by
  unfold validateBlockPositionWithChain
  have hge : ¬ i ≥ (chain ++ more).length := by simp; omega
  have hge' : ¬ i ≥ chain.length := by omega
  simp only [hge, hge', List.getElem?_append_left h, List.getElem?_append_left (show i - 1 < chain.length by omega),
    expectedDifficulty_append (show i ≤ chain.length by omega)]

theorem position_last {chain : List Block} {block : Block} (hne : chain ≠ []) :
    validateBlockPositionWithChain K (chain ++ [block]) chain.length = true ↔ Extends K chain block := by
  have hpos := List.length_pos_of_ne_nil hne
  obtain ⟨previous, hlast⟩ : ∃ previous, chain.getLast? = some previous :=
    ⟨_, List.getLast?_eq_some_getLast hne⟩
  have hprev : (chain ++ [block])[chain.length - 1]? = some previous := by
    rw [List.getElem?_append_left (by omega), ← List.getLast?_eq_getElem?, hlast]
  unfold validateBlockPositionWithChain Extends
  simp only [show ¬ (chain.length = 0 ∨ chain.length ≥ (chain ++ [block]).length) by simp; omega, ite_false, hprev,
    List.getElem?_concat_length, hlast, Option.some.injEq, exists_eq_left',
    expectedDifficulty_append (Nat.le_refl chain.length), expectedNextDifficulty]
  by_cases h₁ : block.header.height = previous.header.height + 1 <;>
    by_cases h₂ : block.header.previousHash = previous.hash K <;>
    by_cases h₃ : block.header.timestamp < previous.header.timestamp <;> simp [h₁, h₂, h₃]

/-! ## The replay loop -/

theorem rebuildLoop_cons {chain : List Block} {i : Nat} {block : Block} {rest : List Block} {u : UTXOSet} {t : UInt64}
    {r : ChainValidationResult} : rebuildLoop K chain i (block :: rest) u t = .ok (some r) ↔
      block.validateBasic K = .ok true ∧ validateBlockPositionWithChain K chain i = true ∧
      ∃ t' u', addCoinbaseIssuance block t = some t' ∧
        applyBlockTransactionsInPlaceAfterBasicValidation K block u = .ok (some u') ∧
        rebuildLoop K chain (i + 1) rest u' t' = .ok (some r) := by
  simp only [rebuildLoop, bind_ok, ite_not_none]
  refine ⟨?_, ?_⟩
  · intro hx
    obtain ⟨basic, hb, rfl, hp, h⟩ := hx
    cases ht : addCoinbaseIssuance block t with
    | none => simp [ht] at h
    | some t' =>
      rw [ht] at h
      obtain ⟨u', hu, h⟩ := ifSome_ok.mp h
      exact ⟨hb, hp, t', u', rfl, hu, h⟩
  · intro hx
    obtain ⟨hb, hp, t', u', ht, hu, h⟩ := hx
    refine ⟨true, hb, rfl, hp, ?_⟩
    rw [ht]
    exact ifSome_ok.mpr ⟨u', hu, h⟩

theorem rebuildLoop_append_chain (chain more : List Block) : ∀ {rest : List Block} {i : Nat} {u : UTXOSet}
    {t : UInt64} {r : ChainValidationResult}, i + rest.length ≤ chain.length →
    (rebuildLoop K (chain ++ more) i rest u t = .ok (some r) ↔ rebuildLoop K chain i rest u t = .ok (some r))
  | [], _, _, _, _, _ => Iff.rfl
  | block :: rest, i, u, t, r, h => by
    simp only [List.length_cons] at h
    have ih : ∀ u t, rebuildLoop K (chain ++ more) (i + 1) rest u t = .ok (some r) ↔
        rebuildLoop K chain (i + 1) rest u t = .ok (some r) := fun u t => rebuildLoop_append_chain chain more (by omega)
    simp only [rebuildLoop_cons, position_append (show i < chain.length by omega), ih]

theorem rebuildLoop_append {chain : List Block} : ∀ {l m : List Block} {i : Nat} {u : UTXOSet} {t : UInt64}
    {r : ChainValidationResult}, rebuildLoop K chain i (l ++ m) u t = .ok (some r) ↔
      ∃ q, rebuildLoop K chain i l u t = .ok (some q) ∧
        rebuildLoop K chain (i + l.length) m q.utxo q.totalIssued = .ok (some r)
  | [], m, i, u, t, r => by simp [rebuildLoop]
  | block :: l, m, i, u, t, r => by
    simp only [List.cons_append, rebuildLoop_cons, rebuildLoop_append (l := l), List.length_cons,
      show i + (l.length + 1) = i + 1 + l.length by omega]
    refine ⟨?_, ?_⟩
    · intro hx
      obtain ⟨hb, hp, t', u', ht, hu, q, hq, hr⟩ := hx
      exact ⟨q, ⟨hb, hp, t', u', ht, hu, hq⟩, hr⟩
    · intro hx
      obtain ⟨q, ⟨hb, hp, t', u', ht, hu, hq⟩, hr⟩ := hx
      exact ⟨hb, hp, t', u', ht, hu, q, hq, hr⟩

theorem rebuild_cons {genesis : Block} {rest : List Block} {r : ChainValidationResult} :
    validateAndRebuildChain K (genesis :: rest) = .ok (some r) ↔
      validateGenesisCanonical K genesis = .ok true ∧ rebuildLoop K (genesis :: rest) 1 rest ∅ 0 = .ok (some r) := by
  simp only [validateAndRebuildChain, bind_ok, ite_not_none]
  refine ⟨?_, ?_⟩
  · intro hx
    obtain ⟨b, hb, rfl, h⟩ := hx
    exact ⟨hb, h⟩
  · intro hx
    obtain ⟨hb, h⟩ := hx
    exact ⟨true, hb, rfl, h⟩

/-- What one more block needs, and what it does. -/
structure Appends (K : Crypto) (chain : List Block) (u : UTXOSet) (t : UInt64) (block : Block) (u' : UTXOSet)
    (t' : UInt64) : Prop where
  basic : block.validateBasic K = .ok true
  extends_ : Extends K chain block
  issuance : addCoinbaseIssuance block t = some t'
  applies : applyBlockTransactionsInPlaceAfterBasicValidation K block u = .ok (some u')

theorem rebuild_snoc {chain : List Block} {block : Block} (hne : chain ≠ []) {r : ChainValidationResult} :
    validateAndRebuildChain K (chain ++ [block]) = .ok (some r) ↔
      ∃ q, validateAndRebuildChain K chain = .ok (some q) ∧
        Appends K chain q.utxo q.totalIssued block r.utxo r.totalIssued := by
  cases chain with
  | nil => exact absurd rfl hne
  | cons genesis rest =>
    have hone : ∀ {i : Nat} {u : UTXOSet} {t : UInt64}, rebuildLoop K (genesis :: (rest ++ [block])) i [] u t =
        .ok (some ⟨u, t⟩) := rfl
    simp only [List.cons_append, rebuild_cons, rebuildLoop_append]
    refine ⟨?_, ?_⟩
    · intro hx
      obtain ⟨hg, q, hq, hr⟩ := hx
      have hq' := (rebuildLoop_append_chain (genesis :: rest) [block] (by simp; omega)).mp hq
      obtain ⟨hb, hp, t', u', ht, hu, hr⟩ := rebuildLoop_cons.mp hr
      rw [hone, Except.ok.injEq, Option.some.injEq] at hr
      subst hr
      refine ⟨q, ⟨hg, hq'⟩, hb, (position_last hne).mp ?_, ht, hu⟩
      rw [Nat.add_comm] at hp
      exact hp
    · intro hx
      obtain ⟨q, ⟨hg, hq⟩, hb, he, ht, hu⟩ := hx
      have hq' := (rebuildLoop_append_chain (genesis :: rest) [block] (by simp; omega)).mpr hq
      refine ⟨hg, q, hq', rebuildLoop_cons.mpr ⟨hb, ?_, _, _, ht, hu, hone⟩⟩
      rw [Nat.add_comm]
      exact (position_last hne).mpr he

/-- An accepted chain, block by block, with its UTXO set and what it has issued. -/
inductive Replay (K : Crypto) : List Block → UTXOSet → UInt64 → Prop
  | genesis {block} : validateGenesisCanonical K block = .ok true → Replay K [block] ∅ 0
  | snoc {chain block u t u' t'} : Replay K chain u t → Appends K chain u t block u' t' →
    Replay K (chain ++ [block]) u' t'

theorem Replay.ne_nil {chain : List Block} {u : UTXOSet} {t : UInt64} (h : Replay K chain u t) : chain ≠ [] := by
  cases h <;> simp

theorem replay_of_rebuild : ∀ {chain : List Block} {r : ChainValidationResult},
    validateAndRebuildChain K chain = .ok (some r) → Replay K chain r.utxo r.totalIssued := by
  intro chain
  induction chain using List.reverseRecOn with
  | nil => intro r h; simp [validateAndRebuildChain] at h
  | append_singleton chain block ih =>
    intro r h
    by_cases hne : chain = []
    · subst hne
      obtain ⟨hg, hr⟩ := rebuild_cons.mp h
      simp only [rebuildLoop, Except.ok.injEq, Option.some.injEq] at hr
      subst hr
      exact .genesis hg
    · obtain ⟨q, hq, ha⟩ := (rebuild_snoc hne).mp h
      exact .snoc (ih hq) ha

theorem rebuild_of_replay {chain : List Block} {u : UTXOSet} {t : UInt64} (h : Replay K chain u t) :
    validateAndRebuildChain K chain = .ok (some ⟨u, t⟩) := by
  induction h with
  | genesis hg => exact rebuild_cons.mpr ⟨hg, rfl⟩
  | snoc hr ha ih => exact (rebuild_snoc hr.ne_nil).mpr ⟨_, ih, ha⟩

/-- The validator accepts a chain exactly when it is a replay, and returns what the replay ends with. -/
theorem rebuild_iff {chain : List Block} {r : ChainValidationResult} :
    validateAndRebuildChain K chain = .ok (some r) ↔ Replay K chain r.utxo r.totalIssued :=
  ⟨replay_of_rebuild, rebuild_of_replay⟩

theorem candidate_iff {chain : List Block} :
    validateCandidateChain K chain = .ok true ↔ ∃ u t, Replay K chain u t := by
  simp only [validateCandidateChain, bind_ok, pure_ok]
  refine ⟨?_, ?_⟩
  · intro hx
    obtain ⟨r, hr, hs⟩ := hx
    obtain ⟨q, rfl⟩ := Option.isSome_iff_exists.mp hs
    exact ⟨_, _, rebuild_iff.mp hr⟩
  · intro hx
    obtain ⟨u, t, h⟩ := hx
    exact ⟨some ⟨u, t⟩, rebuild_of_replay h, rfl⟩

theorem rebuildUtxoSet_ok {chain : List Block} {u : UTXOSet} :
    rebuildUtxoSet K chain = .ok u ↔ ∃ t, Replay K chain u t := by
  simp only [rebuildUtxoSet, bind_ok]
  refine ⟨?_, ?_⟩
  · intro hx
    obtain ⟨r, hr, h⟩ := hx
    cases r with
    | none => simp at h
    | some q =>
      simp only [pure_ok] at h
      exact ⟨q.totalIssued, h ▸ rebuild_iff.mp hr⟩
  · intro hx
    obtain ⟨t, h⟩ := hx
    exact ⟨_, rebuild_of_replay h, rfl⟩

theorem Replay.unique {chain : List Block} {u u' : UTXOSet} {t t' : UInt64} (h : Replay K chain u t)
    (h' : Replay K chain u' t') : u = u' ∧ t = t' := by
  have h₁ := rebuild_of_replay h
  rw [rebuild_of_replay h', Except.ok.injEq, Option.some.injEq, ChainValidationResult.mk.injEq] at h₁
  exact ⟨h₁.1.symm, h₁.2.symm⟩

theorem Replay.of_snoc {chain : List Block} {block : Block} {u' : UTXOSet} {t' : UInt64} (hne : chain ≠ [])
    (h : Replay K (chain ++ [block]) u' t') : ∃ u t, Replay K chain u t ∧ Appends K chain u t block u' t' := by
  obtain ⟨q, hq, ha⟩ := (rebuild_snoc hne).mp (rebuild_of_replay h)
  exact ⟨_, _, rebuild_iff.mp hq, ha⟩

theorem Replay.take {chain : List Block} {u : UTXOSet} {t : UInt64} (h : Replay K chain u t) {n : Nat} (hn : 0 < n) :
    ∃ u' t', Replay K (chain.take n) u' t' := by
  induction h with
  | genesis hg =>
    rw [List.take_of_length_le (by simp; omega)]
    exact ⟨_, _, .genesis hg⟩
  | @snoc chain block _ _ u' t' hr ha ih =>
    by_cases hle : n ≤ chain.length
    · rw [List.take_append_of_le_length hle]
      exact ih
    · rw [List.take_of_length_le (by simp; omega)]
      exact ⟨u', t', .snoc hr ha⟩

/-! ## Heights -/

theorem genesis_true {block : Block} (h : validateGenesisCanonical K block = .ok true) :
    block.header.height = 0 ∧ block.header.difficulty = 0 ∧ block.validateBasic K = .ok true := by
  unfold validateGenesisCanonical at h
  split at h
  · simp at h
  · rename_i hh
    split at h
    · simp at h
    · split at h
      · simp at h
      · rename_i hd
        exact ⟨by simpa using hh, by simpa using hd, h⟩

/-- Heights are positions, so an accepted chain has at most `2 ^ 64` blocks. -/
theorem Replay.height {chain : List Block} {u : UTXOSet} {t : UInt64} (h : Replay K chain u t) :
    ∀ (i : Nat) (block : Block), chain[i]? = some block → block.header.height.toNat = i := by
  induction h with
  | genesis hg =>
    intro i block hi
    rw [List.getElem?_singleton] at hi
    split at hi
    · rename_i hz
      cases hi
      simp [(genesis_true hg).1, hz]
    · cases hi
  | @snoc chain b _ _ _ _ hr ha ih =>
    intro i block hi
    by_cases hlt : i < chain.length
    · rw [List.getElem?_append_left hlt] at hi
      exact ih i block hi
    · have hil : i = chain.length := by
        have := (List.getElem?_eq_some_iff.mp hi).1
        simp at this; omega
      subst hil
      rw [List.getElem?_concat_length, Option.some.injEq] at hi
      subst hi
      obtain ⟨previous, hlast, hheight, -⟩ := ha.extends_
      have hpos := List.length_pos_of_ne_nil hr.ne_nil
      rw [List.getLast?_eq_getElem?] at hlast
      have hprev := ih _ previous hlast
      have hne := applyBlock_height ha.applies
      have hne' : b.header.height.toNat ≠ 0 := fun he => hne (UInt64.toNat.inj he)
      rw [hheight, UInt64.toNat_add] at hne' ⊢
      have := previous.header.height.toNat_lt
      rw [show (1 : UInt64).toNat = 1 from rfl] at *
      omega

/-! ## Inside a block -/

/-- The UTXO set that transaction `j` of block `i` is checked against. -/
def utxoBefore (K : Crypto) (chain : List Block) (i j : Nat) : Result (Option UTXOSet) := do
  let utxos ← rebuildUtxoSet K (chain.take i)
  match chain[i]? with
  | none => pure none
  | some block =>
    applyBlockTransactionsInPlaceAfterBasicValidation K { block with transactions := block.transactions.take j } utxos

theorem Replay.appends {chain : List Block} {u : UTXOSet} {t : UInt64} (h : Replay K chain u t) {i : Nat}
    {block : Block} (hi : 0 < i) (hb : chain[i]? = some block) :
    ∃ u t u' t', Replay K (chain.take i) u t ∧ Appends K (chain.take i) u t block u' t' ∧
      Replay K (chain.take (i + 1)) u' t' := by
  obtain ⟨u', t', hr⟩ := h.take (Nat.succ_pos i)
  have hlt := (List.getElem?_eq_some_iff.mp hb).1
  have hsplit : chain.take (i + 1) = chain.take i ++ [block] := by
    rw [List.take_add_one, hb]; rfl
  have hne : chain.take i ≠ [] := by
    intro he
    have := congrArg List.length he
    rw [List.length_take, List.length_nil] at this
    omega
  rw [hsplit] at hr ⊢
  obtain ⟨u, t, hr', ha⟩ := Replay.of_snoc hne hr
  exact ⟨u, t, u', t', hr', ha, hr⟩

/-- Every transaction after the coinbase was applied to the UTXO set before it. -/
theorem Replay.transaction {chain : List Block} {u : UTXOSet} {t : UInt64} (h : Replay K chain u t) {i j : Nat}
    {block : Block} {tx : Transaction} (hi : 0 < i) (hj : 0 < j) (hb : chain[i]? = some block)
    (htx : block.transactions[j]? = some tx) :
    ∃ w w', utxoBefore K chain i j = .ok (some w) ∧ applyTransaction K tx w = .ok (some w') := by
  obtain ⟨u, t, u', t', hr, ha, -⟩ := h.appends hi hb
  obtain ⟨coinbase, rest, v, hbt, hc, hrest⟩ := applyBlock_ok.mp ha.applies
  obtain ⟨k, rfl⟩ : ∃ k, j = k + 1 := ⟨j - 1, by omega⟩
  rw [hbt, List.getElem?_cons_succ] at htx
  obtain ⟨hk, hget⟩ := List.getElem?_eq_some_iff.mp htx
  have hsplit : rest = rest.take k ++ tx :: rest.drop (k + 1) := by
    rw [← hget, List.getElem_cons_drop, List.take_append_drop]
  rw [hsplit] at hrest
  obtain ⟨w, hw, hrest⟩ := applyTransactions_append.mp hrest
  obtain ⟨w', hw', -⟩ := applyTransactions_cons.mp hrest
  refine ⟨w, w', ?_, hw'⟩
  simp only [utxoBefore, bind_ok, rebuildUtxoSet_ok, hb]
  refine ⟨u, ⟨t, hr⟩, applyBlock_ok.mpr ⟨coinbase, rest.take k, v, ?_, hc, hw⟩⟩
  simp [hbt]

end

end Caesar
