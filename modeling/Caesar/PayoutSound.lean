import Caesar.Payout
import Caesar.WalletSound

/-!
# What a payout deducts and what it pays

The shares of the whole snapshot are deducted once the transaction was accepted
and announced. So a worker whose part rounds to zero loses shares that nothing
pays, and when a peer throws all of them keep shares that the pool's transaction
pays.
-/

namespace Caesar

open Codec

/-! ## Workers -/

namespace PoolWorkers

variable {workers : PoolWorkers}

/-- The worker has at least these pending shares. -/
def Holds (workers : PoolWorkers) (item : Bytes × UInt64) : Prop := ∃ p, (item.1, p) ∈ workers.entries ∧ item.2 ≤ p

theorem keys_nodup (workers : PoolWorkers) : (workers.entries.map Prod.fst).Nodup :=
  List.pairwise_map.mpr (workers.sorted.imp And.left)

theorem unique {addr : Bytes} {p q : UInt64} (hp : (addr, p) ∈ workers.entries) (hq : (addr, q) ∈ workers.entries) :
    p = q :=
  (Prod.mk.inj (List.inj_on_of_nodup_map workers.keys_nodup hp hq rfl)).2

theorem mem_snapshot {item : Bytes × UInt64} : item ∈ workers.snapshot ↔ item ∈ workers.entries ∧ 0 < item.2 := by
  rw [snapshot, List.mem_filter, decide_eq_true_eq]

theorem snapshot_nodup (workers : PoolWorkers) : (workers.snapshot.map Prod.fst).Nodup :=
  (List.filter_sublist.map _).nodup workers.keys_nodup

end PoolWorkers

/-! ## The transaction -/

/-- The outputs to workers: one for each part that is not zero. -/
def workerOutputs (workerPool total : UInt64) (snap : List (Bytes × UInt64)) : List TransactionOutput :=
  snap.filterMap fun kv =>
    if payoutAmount workerPool total kv.2 = 0 then none else some ⟨payoutAmount workerPool total kv.2, kv.1⟩

theorem mem_workerOutputs {workerPool total : UInt64} {snap : List (Bytes × UInt64)} {output : TransactionOutput} :
    output ∈ workerOutputs workerPool total snap ↔ ∃ item ∈ snap, payoutAmount workerPool total item.2 ≠ 0 ∧
      output = ⟨payoutAmount workerPool total item.2, item.1⟩ := by
  rw [workerOutputs, List.mem_filterMap]
  refine exists_congr fun item => and_congr_right fun _ => ?_
  by_cases hzero : payoutAmount workerPool total item.2 = 0
  · simp [hzero]
  · simp [hzero, eq_comm]

theorem assignOutputs_eq (workerPool total : UInt64) : ∀ (snap : List (Bytes × UInt64)) (st : Assignment),
    assignOutputs workerPool total snap st = ⟨st.outputs ++ workerOutputs workerPool total snap,
      (workerOutputs workerPool total snap).foldl (fun assigned output => assigned + output.amount) st.assigned,
      st.recipients + (workerOutputs workerPool total snap).length⟩
  | [], st => by simp [assignOutputs, workerOutputs]
  | (addr, shares) :: rest, st => by
    rw [assignOutputs, workerOutputs, List.filterMap_cons]
    by_cases hzero : payoutAmount workerPool total shares = 0
    · simp only [hzero, if_true]
      exact assignOutputs_eq workerPool total rest st
    · simp only [hzero, if_false]
      rw [assignOutputs_eq, List.foldl_cons, List.length_cons, List.append_assoc, Nat.add_assoc, Nat.add_comm 1]
      rfl

/-- The coins are taken from the front, and the first one always. -/
theorem gatherInputs_spent (target : UInt64) : ∀ (utxos : List WalletUtxo) (inputs : List TransactionInput)
    (gathered : UInt64), ∃ spent, spent <+: utxos ∧ (utxos ≠ [] → spent ≠ []) ∧
      gatherInputs target utxos inputs gathered = (inputs ++ spent.map (fun utxo => ⟨utxo.txid, utxo.index⟩),
        spent.foldl (fun total utxo => total + utxo.amount) gathered)
  | [], inputs, gathered => ⟨[], List.nil_prefix, id, by simp [gatherInputs]⟩
  | utxo :: rest, inputs, gathered => by
    rw [gatherInputs]
    by_cases hreached : gathered + utxo.amount ≥ target
    · refine ⟨[utxo], List.prefix_append [utxo] rest, fun _ => List.cons_ne_nil _ _, ?_⟩
      simp only [hreached, if_true]
      rfl
    · obtain ⟨spent, hspent, -, he⟩ := gatherInputs_spent target rest (inputs ++ [⟨utxo.txid, utxo.index⟩])
        (gathered + utxo.amount)
      refine ⟨utxo :: spent, (List.prefix_cons_inj utxo).mpr hspent, fun _ => List.cons_ne_nil _ _, ?_⟩
      simp only [hreached, if_false]
      rw [he, List.append_assoc]
      rfl

theorem signInputs_ok {wallet : PoolWallet} {publicKey : Bytes} : ∀ {indices : List Nat} {tx signed : Transaction},
    signInputs wallet publicKey indices tx = .ok signed → signed.inputs = tx.inputs ∧ signed.outputs = tx.outputs
  | [], tx, signed, h => by
    obtain rfl := Except.ok.inj h
    exact ⟨rfl, rfl⟩
  | i :: rest, tx, signed, h => by
    obtain ⟨signature, -, h⟩ := bind_ok.mp h
    obtain ⟨hinputs, houtputs⟩ := signInputs_ok h
    exact ⟨hinputs, houtputs⟩

section
variable {wallet : PoolWallet} {poolAddr : Bytes} {feeAmount : UInt64 → UInt64} {snap : List (Bytes × UInt64)}
  {utxos : List WalletUtxo} {plan : PayoutPlan}

def walletBalance (utxos : List WalletUtxo) : UInt64 := utxos.foldl (fun total utxo => total + utxo.amount) 0

/-- What `buildPayout` has put together when it returns. -/
structure PayoutPlan.Built (plan : PayoutPlan) (poolAddr : Bytes) (snap : List (Bytes × UInt64)) (utxos : List WalletUtxo) :
    Prop where
  balance : ¬ walletBalance utxos < 10000
  pool : plan.workerPool = walletBalance utxos - 1000 - plan.fee
  assigned : plan.assigned = (workerOutputs plan.workerPool (totalPending snap) snap).foldl
    (fun assigned output => assigned + output.amount) 0
  recipients : plan.recipients = (workerOutputs plan.workerPool (totalPending snap) snap).length
  someone : workerOutputs plan.workerPool (totalPending snap) snap ≠ []
  inputs : plan.tx.inputs = (gatherInputs (plan.assigned + 5000) utxos [] 0).1
  covered : ¬ (gatherInputs (plan.assigned + 5000) utxos [] 0).2 < plan.assigned
  outputs : plan.tx.outputs = workerOutputs plan.workerPool (totalPending snap) snap ++
    if (gatherInputs (plan.assigned + 5000) utxos [] 0).2 > plan.assigned then
      [⟨(gatherInputs (plan.assigned + 5000) utxos [] 0).2 - plan.assigned, poolAddr⟩] else []

theorem buildPayout_built (h : buildPayout wallet poolAddr feeAmount snap utxos = .ok plan) :
    plan.Built poolAddr snap utxos := by
  unfold buildPayout at h
  simp only [assignOutputs_eq, List.nil_append, Nat.zero_add] at h
  obtain ⟨hbalance, h⟩ := ite_error_ok.mp h
  obtain ⟨hdust, h⟩ := ite_error_ok.mp h
  obtain ⟨hcovered, h⟩ := ite_error_ok.mp h
  obtain ⟨publicKey, -, h⟩ := bind_ok.mp h
  obtain ⟨tx, hsigned, h⟩ := bind_ok.mp h
  obtain rfl := pure_ok.mp h
  obtain ⟨hinputs, houtputs⟩ := signInputs_ok hsigned
  exact ⟨hbalance, rfl, rfl, rfl, fun hnil => hdust (List.isEmpty_iff.mpr hnil), hinputs, hcovered, houtputs⟩

end

/-! ## The call -/

namespace PayoutCall

variable {K : Crypto} {call : PayoutCall K} {plan : PayoutPlan}

/-- The pool holds the transaction that the call built, and it has the output for the worker's `k` shares. -/
def Paid (call : PayoutCall K) (addr : Bytes) (k : UInt64) : Prop :=
  ∃ plan, call.plan = .ok plan ∧ plan.tx ∈ call.poolExecutePayout.node.mempool.snapshot ∧
    (addr, k) ∈ call.workers.snapshot ∧
    ⟨payoutAmount plan.workerPool (totalPending call.workers.snapshot) k, addr⟩ ∈ plan.tx.outputs

end PayoutCall

def toyWorkers (a b : UInt64) : PoolWorkers := ⟨[([97], a), ([98], b)], by simp; decide⟩

/-- The wallet owns the coinbase of the first block, and the fee is 35 percent. -/
def toyPayout (connections : List Connection) (workers : PoolWorkers) : PayoutCall toyCrypto where
  node := toyNode [toyGenesis, toyFirst]
  connections := connections
  walk := toyWalk
  coins := toyCoins
  wallet := some ⟨.ok toyKey, fun _ => .ok [9]⟩
  feeAmount balance := balance * 35 / 100
  time := 0
  workers := workers
  later := workers
  payouts := []

theorem exists_of_map_ok {α β : Type} {x : Result α} {f : α → β} {b : β} (h : x.map f = .ok b) : ∃ a, x = .ok a ∧ f a = b := by
  cases x with
  | error e => cases h
  | ok a => exact ⟨a, rfl, Except.ok.inj h⟩

end Caesar
