import Caesar.ChainSound

/-!
# No inflation

A transaction never adds value to the UTXO set, a block adds its subsidy, and
the issuance counter adds exactly the same, so along a replay the set is worth
at most what was issued.
-/

namespace Caesar

open Codec

section
variable {K : Crypto}

def utxoTotal (u : UTXOSet) : Nat := (u.entries.map fun entry => entry.2.amount.toNat).sum

def subsidies (n : Nat) : Nat := ((List.range' 1 n).map fun height => (blockSubsidy (UInt64.ofNat height)).toNat).sum

theorem utxoTotal_eq (u : UTXOSet) : utxoTotal u = Coins.total (fun output => output.amount.toNat) u := rfl

/-! ## One transaction, one block -/

theorem applyTransaction_total {tx : Transaction} {u u' : UTXOSet} (h : applyTransaction K tx u = .ok (some u')) :
    utxoTotal u' ≤ utxoTotal u := by
  obtain ⟨hc, hw, hf, ha⟩ := applyTransaction_ok.mp h
  have hgain := (authorized_of_validate hw).noGain
  have htotal := Coins.apply_total (fun output : TransactionOutput => output.amount.toNat) ha
  have hin : (tx.entry K).inputs = tx.points := by simp [Transaction.entry, hc]
  have hout : ((tx.entry K).outputs.map fun o => o.2.amount.toNat).sum = amounts tx.outputs := by
    rw [Transaction.entry, outputsAt_values _ _ _ fun o => o.amount.toNat, amounts]
  rw [hin, hout, ← utxoTotal_eq, ← utxoTotal_eq] at htotal
  have hval : (tx.points.map (Coins.valueAt (fun output => output.amount.toNat) u)).sum =
    (tx.points.map (amountAt u)).sum := rfl
  omega

theorem applyTransactions_total : ∀ {txs : List Transaction} {u u' : UTXOSet},
    applyTransactions K txs u = .ok (some u') → utxoTotal u' ≤ utxoTotal u
  | [], u, u', h => by
    simp only [applyTransactions, Except.ok.injEq, Option.some.injEq] at h
    rw [h]
  | tx :: rest, u, u', h => by
    obtain ⟨w, hw, h⟩ := applyTransactions_cons.mp h
    exact Nat.le_trans (applyTransactions_total h) (applyTransaction_total hw)

theorem applyCoinbase_total {tx : Transaction} {height : UInt64} {u u' : UTXOSet}
    (h : applyCoinbase K tx height u = .ok (some u')) : utxoTotal u' = utxoTotal u + (blockSubsidy height).toNat := by
  obtain ⟨hv, -, ha⟩ := applyCoinbase_ok.mp h
  obtain ⟨hc, -, output, ho, hamount, -⟩ := coinbase_true hv
  have htotal := Coins.apply_total (fun output : TransactionOutput => output.amount.toNat) ha
  have hin : (tx.entry K).inputs = [] := by simp [Transaction.entry, hc]
  have hout : ((tx.entry K).outputs.map fun o => o.2.amount.toNat).sum = (blockSubsidy height).toNat := by
    rw [Transaction.entry, outputsAt_values _ _ _ fun o => o.amount.toNat, ho]
    simp [hamount]
  rw [hin, hout, ← utxoTotal_eq, ← utxoTotal_eq] at htotal
  simpa using htotal

theorem applyBlock_total {block : Block} {u u' : UTXOSet}
    (h : applyBlockTransactionsInPlaceAfterBasicValidation K block u = .ok (some u')) :
    utxoTotal u' ≤ utxoTotal u + (blockSubsidy block.header.height).toNat := by
  obtain ⟨coinbase, rest, w, -, hc, hr⟩ := applyBlock_ok.mp h
  rw [← applyCoinbase_total hc]
  exact applyTransactions_total hr

theorem issuance_exact {block : Block} {u u' : UTXOSet} {t t' : UInt64}
    (ha : applyBlockTransactionsInPlaceAfterBasicValidation K block u = .ok (some u'))
    (ht : addCoinbaseIssuance block t = some t') (hle : t.toNat ≤ czrMaxSupply.toNat) :
    t'.toNat = t.toNat + (blockSubsidy block.header.height).toNat ∧ t'.toNat ≤ czrMaxSupply.toNat := by
  obtain ⟨coinbase, rest, w, hb, hc, -⟩ := applyBlock_ok.mp ha
  obtain ⟨hcb, -, output, ho, hamount, -⟩ := coinbase_true (applyCoinbase_ok.mp hc).1
  rw [issuance_cons hb hcb, ho, addIssuedOutputs, hamount] at ht
  split at ht
  · cases ht
  · rename_i hg
    rw [addIssuedOutputs, Option.some.injEq] at ht
    rw [← ht]
    exact add_within hle hg

/-! ## Along a replay -/

structure Supplied (chain : List Block) (u : UTXOSet) (t : UInt64) : Prop where
  backed : utxoTotal u ≤ t.toNat
  issued : t.toNat = subsidies (chain.length - 1)
  capped : t.toNat ≤ czrMaxSupply.toNat

theorem subsidies_succ (n : Nat) :
    subsidies (n + 1) = subsidies n + (blockSubsidy (UInt64.ofNat (n + 1))).toNat := by
  simp [subsidies, List.range'_1_concat, Nat.add_comm]

theorem Replay.supplied {chain : List Block} {u : UTXOSet} {t : UInt64} (h : Replay K chain u t) :
    Supplied chain u t := by
  induction h with
  | genesis hg => exact ⟨Nat.le_refl 0, rfl, Nat.zero_le _⟩
  | @snoc chain block u t u' t' hr ha ih =>
    obtain ⟨hexact, hcap⟩ := issuance_exact ha.applies ha.issuance ih.capped
    have htotal := applyBlock_total ha.applies
    have hheight := (Replay.snoc hr ha).height chain.length block (by simp)
    have hpos := List.length_pos_of_ne_nil hr.ne_nil
    have hsub : blockSubsidy block.header.height = blockSubsidy (UInt64.ofNat (chain.length - 1 + 1)) := by
      rw [Nat.sub_add_cancel hpos, ← hheight, UInt64.ofNat_toNat]
    refine ⟨?_, ?_, hcap⟩
    · have := ih.backed; omega
    · rw [List.length_append, List.length_singleton, hexact, ih.issued, hsub,
        show chain.length + 1 - 1 = chain.length - 1 + 1 by omega, subsidies_succ]

/-- The UTXO set of an accepted chain is worth at most what the chain has issued, which is the sum of the
subsidies of its heights; and every partial sum that the checks of its transactions form is exact. -/
theorem accepted_supply {chain : List Block} {r : ChainValidationResult}
    (h : validateAndRebuildChain K chain = .ok (some r)) :
    utxoTotal r.utxo ≤ r.totalIssued.toNat ∧ r.totalIssued.toNat = subsidies (chain.length - 1) ∧
    ∀ (i j : Nat) (block : Block) (tx : Transaction), 0 < i → 0 < j → chain[i]? = some block →
      block.transactions[j]? = some tx → ∃ u, utxoBefore K chain i j = .ok (some u) ∧
        (∀ k, ∃ s, sumInputs u ∅ 0 (tx.inputs.take k) = some s ∧
          s.toNat = ((tx.points.take k).map (amountAt u)).sum) ∧
        ∀ k, ∃ s, sumOutputs 0 (tx.outputs.take k) = some s ∧ s.toNat = amounts (tx.outputs.take k) := by
  have hr := rebuild_iff.mp h
  obtain ⟨hbacked, hissued, -⟩ := hr.supplied
  refine ⟨hbacked, hissued, ?_⟩
  intro i j block tx hi hj hb htx
  obtain ⟨u, u', hu, ha⟩ := hr.transaction hi hj hb htx
  have hauth := authorized_of_validate (applyTransaction_ok.mp ha).2.1
  exact ⟨u, hu, hauth.inputSums, hauth.outputSums⟩

end

/-! ## A chain of three blocks -/

def toySum (data : Bytes) : Nat := data.foldl (fun sum b => (sum * 257 + b.toNat + 1) % 2 ^ 232) 0

/-- A stand-in for the library: hashes start with 23 zero bits, so every difficulty up to 23 is met. -/
def toyCrypto : Crypto where
  sha256 data := ⟨0 :: 0 :: 1 :: leBytes 29 (toySum data), by simp⟩
  newRawPublicKey := some
  digestVerify _ _ _ := true

def toyBlock (height : UInt64) (previousHash : Hash256) (difficulty : UInt32) (txs : List Transaction) : Block where
  header :=
    { version := 1, height := height, previousHash := previousHash
      merkleRoot := merkleRoot toyCrypto (txs.map (Transaction.id toyCrypto))
      witnessRoot := merkleRoot toyCrypto (txs.map (Transaction.wid toyCrypto))
      timestamp := height, nonce := 0, difficulty := difficulty }
  transactions := txs

def toyNext (previous : Block) (txs : List Transaction) : Block :=
  toyBlock (previous.header.height + 1) (previous.hash toyCrypto) 12 txs

def toyKey : Bytes := List.replicate 64 48

def toyAddress : Bytes := addressFromPublicKey toyCrypto toyKey

def toyCoinbase (height : UInt64) : Transaction :=
  ⟨1, writeU64 height, [⟨Hash256.zero, 0xffffffff⟩], [⟨blockSubsidy height, toyAddress⟩], []⟩

def toySpend (parent : Transaction) (amount : UInt64) : Transaction :=
  ⟨1, [], [⟨parent.id toyCrypto, 0⟩], [⟨amount, toyAddress⟩], [⟨toyKey, [9]⟩]⟩

def toyGenesis : Block := toyBlock 0 Hash256.zero 0 [⟨1, [], [], [⟨1, [7]⟩], []⟩]

def toyFirst : Block := toyNext toyGenesis [toyCoinbase 1]

def toySecond : Block := toyNext toyFirst [toyCoinbase 2, toySpend (toyCoinbase 1) 5, toySpend (toySpend (toyCoinbase 1) 5) 4]

theorem toy_accepted : validateCandidateChain toyCrypto [toyGenesis, toyFirst, toySecond] = .ok true := by
  decide +kernel

theorem accepted_supply_toy : ∃ r, validateAndRebuildChain toyCrypto [toyGenesis, toyFirst, toySecond] = .ok (some r) ∧
    utxoTotal r.utxo ≤ r.totalIssued.toNat ∧ r.totalIssued.toNat = subsidies 2 := by
  obtain ⟨u, t, hr⟩ := candidate_iff.mp toy_accepted
  have h := accepted_supply (rebuild_of_replay hr)
  exact ⟨_, rebuild_of_replay hr, h.1, h.2.1⟩

end Caesar
