import Caesar.BlockSound
import Caesar.SupplySound
import Mathlib.Order.WellFounded
import Mathlib.Data.Set.Finite.List

/-!
# The header commits to the body

The witness tree repeats its last node on odd levels and hashes inner nodes like
leaves, so a root alone does not determine the transactions. In a block that
applies to a UTXO set no neighbouring segment of transactions is repeated: its
inputs would have to be created again inside it, which closes a cycle of
spends. And no transaction is as short as a pair of hashes.
-/

namespace Caesar

open Codec

/-! ## Cycles -/

/-- A finite set in which everything has a successor contains a cycle. -/
theorem exists_cycle {α : Type} {s : List α} {R : α → α → Prop} (hne : s ≠ []) (h : ∀ a ∈ s, ∃ b ∈ s, R a b) :
    ∃ a, Relation.TransGen (fun a b => a ∈ s ∧ b ∈ s ∧ R a b) a a := by
  by_contra hno
  push Not at hno
  let S : α → α → Prop := Relation.TransGen fun a b => a ∈ s ∧ b ∈ s ∧ R a b
  let r : {a // a ∈ s} → {a // a ∈ s} → Prop := fun a b => S b.1 a.1
  have : Finite {a // a ∈ s} := s.finite_toSet.to_subtype
  have : IsTrans _ r := ⟨fun _ _ _ hab hbc => Relation.TransGen.trans hbc hab⟩
  have : Std.Irrefl r := ⟨fun a ha => hno a.1 ha⟩
  have hwf : WellFounded r := Finite.wellFounded_of_trans_of_irrefl r
  obtain ⟨a, ha⟩ := List.exists_mem_of_ne_nil _ hne
  obtain ⟨m, -, hm⟩ := hwf.has_min Set.univ ⟨⟨a, ha⟩, trivial⟩
  obtain ⟨b, hb, hmb⟩ := h m.1 m.2
  exact hm ⟨b, hb⟩ trivial (Relation.TransGen.single ⟨m.2, hb, hmb⟩)

section
variable (K : Crypto)

def Transaction.SpendsFrom (a b : Transaction) : Prop := ∃ input ∈ a.inputs, input.previousTxid = b.id K

instance (a b : Transaction) : Decidable (a.SpendsFrom K b) := List.decidableBEx _ _

/-- No cycle among `txs` spends each other's txids. -/
def Acyclic (txs : List Transaction) : Prop :=
  ∀ tx, ¬ Relation.TransGen (fun a b => a ∈ txs ∧ b ∈ txs ∧ a.SpendsFrom K b) tx tx

theorem acyclic_of_rank {txs : List Transaction} (rank : Transaction → Nat)
    (h : ∀ a ∈ txs, ∀ b ∈ txs, a.SpendsFrom K b → rank b < rank a) : Acyclic K txs := by
  intro tx hcycle
  have hlt : ∀ a b, Relation.TransGen (fun a b => a ∈ txs ∧ b ∈ txs ∧ a.SpendsFrom K b) a b → rank b < rank a := by
    intro a b hab
    induction hab with
    | single hab => exact h _ hab.1 _ hab.2.1 hab.2.2
    | tail _ hbc ih => exact Nat.lt_trans (h _ hbc.1 _ hbc.2.1 hbc.2.2) ih
  exact Nat.lt_irrefl _ (hlt tx tx hcycle)

theorem Acyclic.mono {txs txs' : List Transaction} (h : Acyclic K txs') (hsub : ∀ tx ∈ txs, tx ∈ txs') :
    Acyclic K txs := by
  intro tx hcycle
  exact h tx (Relation.TransGen.mono (fun a b hab => ⟨hsub a hab.1, hsub b hab.2.1, hab.2.2⟩) tx tx hcycle)

/-- The strings hashed for a list of transactions: their full forms, and the nodes above them. -/
def bodyStrings (txs : List Transaction) : List Bytes :=
  txs.map Transaction.fullBytes ++
    (PairTree.hashed (hashPair K) (txs.map (Transaction.wid K))).map fun p => p.1.1 ++ p.2.1

def Block.strings (block : Block) : List Bytes := block.header.serializeBinary :: bodyStrings K block.transactions

/-- SHA-256 has no collision among `strings`. -/
def CollisionFree (strings : List Bytes) : Prop := ∀ s ∈ strings, ∀ t ∈ strings, K.sha256 s = K.sha256 t → s = t

end

section
variable {K : Crypto}

/-! ## No repeated segment -/

theorem entry_txid {tx : Transaction} {p : OutPoint} (h : p ∈ (tx.entry K).keys) : p.txid = tx.id K :=
  mem_outputsAt h

theorem applyTransactions_noSquare {txs : List Transaction} {u u' : UTXOSet} (hac : Acyclic K txs)
    (h : applyTransactions K txs u = .ok (some u')) : PairTree.NoSquare txs := by
  intro a s b he
  by_contra hs
  rw [he] at h
  obtain ⟨w, -, h⟩ := applyTransactions_append.mp h
  rw [← List.append_assoc] at h
  obtain ⟨x, hx, -⟩ := applyTransactions_append.mp h
  -- every input of the segment is created inside it, so every transaction spends from another one of it
  have hspends : ∀ tx ∈ s, ∃ tx' ∈ s, tx.SpendsFrom K tx' := by
    intro tx htx
    obtain ⟨l, r, hlr⟩ := List.append_of_mem htx
    have hx' := hx
    rw [hlr, List.append_assoc, List.cons_append] at hx'
    obtain ⟨y, -, hy⟩ := applyTransactions_append.mp hx'
    obtain ⟨z, hz, -⟩ := applyTransactions_cons.mp hy
    obtain ⟨hc, hw, -, -⟩ := applyTransaction_ok.mp hz
    obtain ⟨input, hin⟩ := List.exists_mem_of_ne_nil _ (validate_true (authorized_of_validate hw).valid).1
    have hkey : input.point ∈ (tx.entry K).inputs := by
      simp only [Transaction.entry, hc, Bool.false_eq_true, ite_false, Transaction.points]
      exact List.mem_map_of_mem hin
    have hcoins := applyTransactions_coins hx
    rw [List.map_append] at hcoins
    have hcreated := Coins.square_inputs rfl hcoins (List.mem_map_of_mem htx) hkey
    obtain ⟨e, he', hk⟩ := Coins.mem_created_keys.mp hcreated
    rw [← List.map_append] at he'
    obtain ⟨tx', htx', rfl⟩ := List.mem_map.mp he'
    exact ⟨tx', by simpa using htx', input, hin, entry_txid hk⟩
  obtain ⟨tx, hcycle⟩ := exists_cycle hs hspends
  have hsub : ∀ tx ∈ s, tx ∈ txs := fun tx htx => by rw [he]; simp [htx]
  exact (hac.mono K hsub) tx hcycle

theorem noSquare_cons {α : Type} {x : α} {l : List α} (hx : x ∉ l) (hl : PairTree.NoSquare l) :
    PairTree.NoSquare (x :: l) := by
  intro a s b he
  cases a with
  | cons y a =>
    simp only [List.cons_append, List.cons.injEq] at he
    exact hl a s b he.2
  | nil =>
    cases s with
    | nil => rfl
    | cons y s =>
      simp only [List.nil_append, List.cons_append, List.cons.injEq] at he
      refine absurd ?_ hx
      rw [he.2, he.1]
      simp

theorem applyBlock_noSquare {block : Block} {u u' : UTXOSet} (hac : Acyclic K block.transactions)
    (h : applyBlockTransactionsInPlaceAfterBasicValidation K block u = .ok (some u'))
    (hcoin : validateCoinbasePositionAndReward block.transactions block.header.height = true) :
    PairTree.NoSquare block.transactions := by
  obtain ⟨coinbase, rest, w, hb, hc, hr⟩ := applyBlock_ok.mp h
  obtain ⟨c, r, hb', hv, hrest⟩ := position_true hcoin
  rw [hb] at hb' hac ⊢
  obtain ⟨rfl, rfl⟩ := List.cons.inj hb'
  refine noSquare_cons ?_ (applyTransactions_noSquare (hac.mono K fun tx htx => by simp [htx]) hr)
  intro hmem
  have hfalse := hrest coinbase hmem
  rw [(coinbase_true hv).1] at hfalse
  cases hfalse

/-! ## Equal hashes -/

theorem map_inj_on {α β : Type} {f : α → β} : ∀ {l m : List α}, (∀ a ∈ l, ∀ b ∈ m, f a = f b → a = b) →
    l.map f = m.map f → l = m
  | [], [], _, _ => rfl
  | [], _ :: _, _, h => by simp at h
  | _ :: _, [], _, h => by simp at h
  | a :: l, b :: m, hf, h => by
    simp only [List.map_cons, List.cons.injEq] at h
    rw [hf a (by simp) b (by simp) h.1, map_inj_on (fun x hx y hy => hf x (by simp [hx]) y (by simp [hy])) h.2]

theorem noSquare_map {α β : Type} {f : α → β} {l : List α} (hf : ∀ a ∈ l, ∀ b ∈ l, f a = f b → a = b)
    (hl : PairTree.NoSquare l) : PairTree.NoSquare (l.map f) := by
  intro a s b he
  obtain ⟨a', r, hr, -, he⟩ := List.map_eq_append_iff.mp he
  obtain ⟨s', r', rfl, hs', he⟩ := List.map_eq_append_iff.mp he
  obtain ⟨s'', b', rfl, hs'', -⟩ := List.map_eq_append_iff.mp he
  have hss : s'' = s' := map_inj_on
    (fun x hx y hy => hf x (by rw [hr]; simp [hx]) y (by rw [hr]; simp [hy])) (by rw [hs', hs''])
  rw [← hs', hl a' s' b' (by rw [hr, hss])]
  rfl

theorem merkleRoot_eq_climb {l m : List Hash256} (hl : l ≠ []) (hm : m ≠ []) (h : merkleRoot K l = merkleRoot K m) :
    PairTree.climb (hashPair K) l.length l = PairTree.climb (hashPair K) m.length m := by
  obtain ⟨a, ha⟩ := List.length_eq_one_iff.mp (PairTree.climb_length (hashPair K) l.length l hl (by omega))
  obtain ⟨b, hb⟩ := List.length_eq_one_iff.mp (PairTree.climb_length (hashPair K) m.length m hm (by omega))
  simp only [merkleRoot, ha, hb] at h
  rw [ha, hb, h]

theorem append_hash_inj {p q : Hash256 × Hash256} (h : p.1.1 ++ p.2.1 = q.1.1 ++ q.2.1) : p = q := by
  obtain ⟨h₁, h₂⟩ := List.append_inj h (by rw [p.1.2, q.1.2])
  exact Prod.ext (Subtype.ext h₁) (Subtype.ext h₂)

theorem transactions_eq_of_root {l m : List Transaction} (hlne : l ≠ []) (hmne : m ≠ [])
    (hl : ∀ tx ∈ l, tx.Fits uint32Max ∧ tx.Shaped) (hm : ∀ tx ∈ m, tx.Fits uint32Max ∧ tx.Shaped)
    (hns : PairTree.NoSquare l) (hns' : PairTree.NoSquare m)
    (hcf : CollisionFree K (bodyStrings K l ++ bodyStrings K m))
    (hroot : merkleRoot K (l.map (Transaction.wid K)) = merkleRoot K (m.map (Transaction.wid K))) : l = m := by
  have hgood : ∀ tx ∈ l ++ m, tx.Fits uint32Max ∧ tx.Shaped := fun tx htx =>
    (List.mem_append.mp htx).elim (hl tx) (hm tx)
  have hmem : ∀ tx ∈ l ++ m, tx.fullBytes ∈ bodyStrings K l ++ bodyStrings K m := by
    intro tx htx
    rcases List.mem_append.mp htx with h | h
    · exact List.mem_append_left _ (List.mem_append_left _ (List.mem_map_of_mem h))
    · exact List.mem_append_right _ (List.mem_append_left _ (List.mem_map_of_mem h))
  have hnode : ∀ p ∈ PairTree.hashed (hashPair K) (l.map (Transaction.wid K)) ++
      PairTree.hashed (hashPair K) (m.map (Transaction.wid K)),
      p.1.1 ++ p.2.1 ∈ bodyStrings K l ++ bodyStrings K m := by
    intro p hp
    rcases List.mem_append.mp hp with h | h
    · exact List.mem_append_left _ (List.mem_append_right _ (List.mem_map.mpr ⟨p, h, rfl⟩))
    · exact List.mem_append_right _ (List.mem_append_right _ (List.mem_map.mpr ⟨p, h, rfl⟩))
  have hinj : ∀ tx ∈ l ++ m, ∀ tx' ∈ l ++ m, tx.wid K = tx'.wid K → tx = tx' := fun tx h tx' h' he =>
    fullBytes_inj (hgood tx h).1 (hgood tx' h').1 (hcf _ (hmem tx h) _ (hmem tx' h') he)
  -- nodes are hashes of 64-byte strings, and no transaction has that length
  have hsep : ∀ x ∈ l.map (Transaction.wid K) ++ m.map (Transaction.wid K),
      ∀ p ∈ PairTree.hashed (hashPair K) (l.map (Transaction.wid K)) ++
        PairTree.hashed (hashPair K) (m.map (Transaction.wid K)), x ≠ hashPair K p.1 p.2 := by
    intro x hx p hp he
    rw [← List.map_append] at hx
    obtain ⟨tx, htx, rfl⟩ := List.mem_map.mp hx
    have hlen := congrArg List.length (hcf _ (hmem tx htx) _ (hnode p hp) he)
    rw [List.length_append, p.1.2, p.2.2] at hlen
    have := (hgood tx htx).2.fullBytes_length
    omega
  have hwids := PairTree.climb_inj
    (noSquare_map (fun a ha b hb => hinj a (List.mem_append_left _ ha) b (List.mem_append_left _ hb)) hns)
    (noSquare_map (fun a ha b hb => hinj a (List.mem_append_right _ ha) b (List.mem_append_right _ hb)) hns')
    (by simpa using hlne)
    (fun p hp q hq he => append_hash_inj (hcf _ (hnode p hp) _ (hnode q hq) he)) hsep
    (merkleRoot_eq_climb (by simpa using hlne) (by simpa using hmne) hroot)
  exact map_inj_on (fun a ha b hb => hinj a (List.mem_append_left _ ha) b (List.mem_append_right _ hb)) hwids

theorem CollisionFree.mono {s s' : List Bytes} (h : CollisionFree K s') (hsub : ∀ x ∈ s, x ∈ s') :
    CollisionFree K s := fun x hx y hy he => h x (hsub x hx) y (hsub y hy) he

theorem header_eq_of_hash {b₁ b₂ : Block} (hcf : CollisionFree K (b₁.strings K ++ b₂.strings K))
    (hhash : b₁.hash K = b₂.hash K) : b₁.header = b₂.header :=
  headerBytes_inj (hcf _ (by simp [Block.strings]) _ (by simp [Block.strings]) hhash)

theorem block_eq_of_hash {b₁ b₂ : Block} {u₁ u₂ u₁' u₂' : UTXOSet} (hb₁ : b₁.validateBasic K = .ok true)
    (ha₁ : applyBlockTransactionsInPlaceAfterBasicValidation K b₁ u₁ = .ok (some u₁'))
    (hb₂ : b₂.validateBasic K = .ok true)
    (ha₂ : applyBlockTransactionsInPlaceAfterBasicValidation K b₂ u₂ = .ok (some u₂'))
    (hcf : CollisionFree K (b₁.strings K ++ b₂.strings K)) (hac₁ : Acyclic K b₁.transactions)
    (hac₂ : Acyclic K b₂.transactions) (hhash : b₁.hash K = b₂.hash K) : b₁ = b₂ := by
  have hheader := header_eq_of_hash hcf hhash
  have hh₁ := applyBlock_height ha₁
  have hh₂ := applyBlock_height ha₂
  obtain ⟨hf₁, -, hw₁⟩ := validateRoots_true (basic_roots hb₁)
  obtain ⟨hf₂, -, hw₂⟩ := validateRoots_true (basic_roots hb₂)
  obtain ⟨hne₁, hs₁⟩ := basic_shaped hb₁ hh₁
  obtain ⟨hne₂, hs₂⟩ := basic_shaped hb₂ hh₂
  have htxs : b₁.transactions = b₂.transactions := by
    refine transactions_eq_of_root hne₁ hne₂ (fun tx h => ⟨hf₁ tx h, hs₁ tx h⟩) (fun tx h => ⟨hf₂ tx h, hs₂ tx h⟩)
      (applyBlock_noSquare hac₁ ha₁ (basic_transactions hb₁ hh₁).1)
      (applyBlock_noSquare hac₂ ha₂ (basic_transactions hb₂ hh₂).1)
      (hcf.mono fun x hx => ?_) (by rw [← hw₁, ← hw₂, hheader])
    rcases List.mem_append.mp hx with hx | hx
    · exact List.mem_append_left _ (List.mem_cons_of_mem _ hx)
    · exact List.mem_append_right _ (List.mem_cons_of_mem _ hx)
  cases b₁
  cases b₂
  simp only at hheader htxs
  rw [hheader, htxs]

/-- Two blocks that apply to one UTXO set and have the same hash are the same block. A genesis block does not
apply to any: it has no coinbase. -/
theorem header_commits {b₁ b₂ : Block} {u u₁ u₂ : UTXOSet}
    (h₁ : applyBlockTransactionsCanonical K b₁ u = .ok (some u₁))
    (h₂ : applyBlockTransactionsCanonical K b₂ u = .ok (some u₂))
    (hcf : CollisionFree K (b₁.strings K ++ b₂.strings K)) (hac : Acyclic K (b₁.transactions ++ b₂.transactions))
    (hhash : b₁.hash K = b₂.hash K) : b₁ = b₂ := by
  obtain ⟨hb₁, ha₁⟩ := applyCanonical_ok.mp h₁
  obtain ⟨hb₂, ha₂⟩ := applyCanonical_ok.mp h₂
  exact block_eq_of_hash hb₁ ha₁ hb₂ ha₂ hcf (hac.mono K fun tx h => List.mem_append_left _ h)
    (hac.mono K fun tx h => List.mem_append_right _ h) hhash

end

def toyRank (tx : Transaction) : Nat := if tx = toySpend (toySpend (toyCoinbase 1) 5) 4 then 1 else 0

theorem header_commits_toy : CollisionFree toyCrypto (toySecond.strings toyCrypto ++ toySecond.strings toyCrypto) ∧
    Acyclic toyCrypto (toySecond.transactions ++ toySecond.transactions) ∧
    toySecond = toyBlock 2 (toyFirst.hash toyCrypto) 12 toySecond.transactions := by
  have hac : Acyclic toyCrypto (toySecond.transactions ++ toySecond.transactions) :=
    acyclic_of_rank toyCrypto toyRank (by decide +kernel)
  have hcf : CollisionFree toyCrypto (toySecond.strings toyCrypto ++ toySecond.strings toyCrypto) := by
    unfold CollisionFree; decide +kernel
  obtain ⟨u', t', hr⟩ := candidate_iff.mp toy_accepted
  have hne : [toyGenesis, toyFirst] ≠ [] := by simp
  obtain ⟨u, t, -, ha⟩ := Replay.of_snoc hne hr
  have happlied := applyCanonical_ok.mpr ⟨ha.basic, ha.applies⟩
  exact ⟨hcf, hac, header_commits happlied happlied hcf hac rfl⟩

end Caesar
