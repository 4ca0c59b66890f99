import Caesar.Lib.ProRata
import Caesar.PayoutSound

/-!
# The amounts of a payout

The worker's part is the product of the pool and the shares in 64 bits, divided
by all shares. It is the true part exactly when the product fits. The sums that
choose the coins and the change are bounded by the balance and never wrap.
-/

namespace Caesar

open Codec ProRata

/-! ## Over unbounded integers -/

def coins (utxos : List WalletUtxo) : Nat := (utxos.map fun utxo => utxo.amount.toNat).sum

def sharesOf (pending : List (Bytes × UInt64)) : Nat := (pending.map fun kv => kv.2.toNat).sum

def exactPart (pool : Nat) (pending : List (Bytes × UInt64)) (shares : UInt64) : Nat :=
  part pool (sharesOf pending) shares.toNat

/-- The payments by address, without the parts that are zero. -/
def exactPayments (pool : Nat) (pending : List (Bytes × UInt64)) : List (Bytes × Nat) :=
  pending.filterMap fun kv => if exactPart pool pending kv.2 = 0 then none else some (kv.1, exactPart pool pending kv.2)

/-- The transaction pays every worker its part of the pool, not more than the pool, and keeps the value of the coins it
spends; what is not for workers goes back to the pool's address. -/
structure PayoutPlan.PaysExactly (plan : PayoutPlan) (poolAddr : Bytes) (pool : Nat) (pending : List (Bytes × UInt64))
    (utxos : List WalletUtxo) : Prop where
  payments : (plan.tx.outputs.take plan.recipients).map (fun output => (output.recipient, output.amount.toNat)) =
    exactPayments pool pending
  bounded : amounts (plan.tx.outputs.take plan.recipients) ≤ pool
  change : ∀ output ∈ plan.tx.outputs.drop plan.recipients, output.recipient = poolAddr
  conserved : ∃ spent, spent <+: utxos ∧ plan.tx.inputs = spent.map (fun utxo => ⟨utxo.txid, utxo.index⟩) ∧
    amounts plan.tx.outputs = coins spent

/-! ## Workers without shares -/

theorem toNat_eq_zero {n : UInt64} (h : ¬ n > 0) : n.toNat = 0 := by
  rw [gt_iff_lt, UInt64.lt_iff_toNat_lt, UInt64.toNat_zero] at h
  omega

theorem sharesOf_snapshot (workers : PoolWorkers) : sharesOf workers.snapshot = sharesOf workers.entries := by
  unfold sharesOf PoolWorkers.snapshot
  induction workers.entries with
  | nil => rfl
  | cons kv rest ih =>
    by_cases hpos : kv.2 > 0
    · rw [List.filter_cons_of_pos (by simpa using hpos), List.map_cons, List.map_cons, List.sum_cons, List.sum_cons, ih]
    · rw [List.filter_cons_of_neg (by simpa using hpos), List.map_cons, List.sum_cons, toNat_eq_zero hpos, Nat.zero_add, ih]

theorem exactPayments_snapshot (pool : Nat) (workers : PoolWorkers) :
    exactPayments pool workers.snapshot = exactPayments pool workers.entries := by
  unfold exactPayments exactPart
  rw [sharesOf_snapshot, PoolWorkers.snapshot, List.filterMap_filter]
  apply List.filterMap_congr
  intro kv _
  by_cases hpos : kv.2 > 0
  · rw [if_pos (by simpa using hpos)]
  · simp [hpos, part, toNat_eq_zero hpos]

/-! ## The loops -/

theorem totalPending_toNat {snap : List (Bytes × UInt64)} (h : sharesOf snap < 2 ^ 64) :
    (totalPending snap).toNat = sharesOf snap := by
  unfold totalPending
  rw [foldl_add_toNat _ _ _ (by simpa [sharesOf] using h)]
  exact Nat.zero_add _

theorem walletBalance_toNat {utxos : List WalletUtxo} (h : coins utxos < 2 ^ 64) :
    (walletBalance utxos).toNat = coins utxos := by
  unfold walletBalance
  rw [foldl_add_toNat _ _ _ (by simpa [coins] using h)]
  exact Nat.zero_add _

theorem coins_mono {spent utxos : List WalletUtxo} (h : spent <+: utxos) : coins spent ≤ coins utxos := by
  obtain ⟨rest, rfl⟩ := h
  unfold coins
  rw [List.map_append, List.sum_append]
  exact Nat.le_add_right _ _

theorem amounts_workerOutputs (workerPool total : UInt64) (snap : List (Bytes × UInt64)) :
    amounts (workerOutputs workerPool total snap) = (snap.map fun kv => (payoutAmount workerPool total kv.2).toNat).sum := by
  unfold amounts workerOutputs
  induction snap with
  | nil => rfl
  | cons kv rest ih =>
    rw [List.filterMap_cons, List.map_cons, List.sum_cons]
    by_cases hzero : payoutAmount workerPool total kv.2 = 0
    · simp only [hzero, if_true, UInt64.toNat_zero, Nat.zero_add]
      exact ih
    · simp only [hzero, if_false, List.map_cons, List.sum_cons]
      rw [ih]

/-! ## Parts in 64 bits -/

section
variable {workerPool : UInt64} {snap : List (Bytes × UInt64)}

theorem payoutAmount_exact_iff {shares : UInt64} (hsum : sharesOf snap < 2 ^ 64) (hpos : 0 < sharesOf snap) :
    (payoutAmount workerPool (totalPending snap) shares).toNat = exactPart workerPool.toNat snap shares ↔
      workerPool.toNat * shares.toNat < 2 ^ 64 := by
  have htotal := totalPending_toNat hsum
  unfold exactPart
  rw [← htotal] at hpos ⊢
  exact mul_div_toNat_iff hpos

theorem shares_le_sharesOf {item : Bytes × UInt64} (h : item ∈ snap) : item.2.toNat ≤ sharesOf snap :=
  List.single_le_sum (fun _ _ => Nat.zero_le _) _ (List.mem_map.mpr ⟨item, h, rfl⟩)

variable (hexact : ∀ item ∈ snap,
  (payoutAmount workerPool (totalPending snap) item.2).toNat = exactPart workerPool.toNat snap item.2)
include hexact

theorem workerOutputs_payments :
    (workerOutputs workerPool (totalPending snap) snap).map (fun output => (output.recipient, output.amount.toNat)) =
      exactPayments workerPool.toNat snap := by
  unfold workerOutputs exactPayments
  rw [List.map_filterMap]
  refine List.filterMap_congr fun kv hkv => ?_
  have hzero : payoutAmount workerPool (totalPending snap) kv.2 = 0 ↔ exactPart workerPool.toNat snap kv.2 = 0 := by
    rw [← hexact kv hkv, ← UInt64.toNat_inj, UInt64.toNat_zero]
  by_cases h : payoutAmount workerPool (totalPending snap) kv.2 = 0
  · rw [if_pos h, if_pos (hzero.mp h)]
    rfl
  · rw [if_neg h, if_neg (hzero.not.mp h), ← hexact kv hkv]
    rfl

theorem workerOutputs_bounded : amounts (workerOutputs workerPool (totalPending snap) snap) ≤ workerPool.toNat := by
  rw [amounts_workerOutputs, List.map_congr_left hexact]
  exact sum_parts_le workerPool.toNat (fun kv : Bytes × UInt64 => kv.2.toNat) snap

end

/-- A part whose product does not fit is not zero, and the output for it has another amount. -/
theorem product_fits {workerPool : UInt64} {workers : PoolWorkers} (hsum : sharesOf workers.snapshot < 2 ^ 64)
    (h : (workerOutputs workerPool (totalPending workers.snapshot) workers.snapshot).map
      (fun output => (output.recipient, output.amount.toNat)) = exactPayments workerPool.toNat workers.snapshot)
    {item : Bytes × UInt64} (hitem : item ∈ workers.snapshot) : workerPool.toNat * item.2.toNat < 2 ^ 64 := by
  by_contra hwraps
  have hshares : 0 < item.2.toNat := by
    have := UInt64.lt_iff_toNat_lt.mp (PoolWorkers.mem_snapshot.mp hitem).2
    rwa [UInt64.toNat_zero] at this
  have hpos : 0 < sharesOf workers.snapshot := lt_of_lt_of_le hshares (shares_le_sharesOf hitem)
  have hpart : exactPart workerPool.toNat workers.snapshot item.2 ≠ 0 := by
    have : 0 < exactPart workerPool.toNat workers.snapshot item.2 := Nat.div_pos (by omega) hpos
    omega
  have hpaid : (item.1, exactPart workerPool.toNat workers.snapshot item.2) ∈
      exactPayments workerPool.toNat workers.snapshot :=
    List.mem_filterMap.mpr ⟨item, hitem, if_neg hpart⟩
  rw [← h] at hpaid
  obtain ⟨output, houtput, he⟩ := List.mem_map.mp hpaid
  obtain ⟨other, hother, -, rfl⟩ := mem_workerOutputs.mp houtput
  obtain ⟨haddr, hamount⟩ := Prod.mk.inj he
  obtain rfl : other = item := List.inj_on_of_nodup_map workers.snapshot_nodup hother hitem haddr
  exact hwraps ((payoutAmount_exact_iff hsum hpos).mp hamount)

/-! ## The transaction -/

namespace PayoutPlan.Built

variable {plan : PayoutPlan} {poolAddr : Bytes} {snap : List (Bytes × UInt64)} {utxos : List WalletUtxo}
  (hb : plan.Built poolAddr snap utxos)
include hb

theorem workerPool_toNat (hbalance : 10000 ≤ coins utxos) (hsupply : coins utxos ≤ czrMaxSupply.toNat)
    (hfee : plan.fee.toNat ≤ coins utxos - 1000) : plan.workerPool.toNat = coins utxos - 1000 - plan.fee.toNat := by
  have hmax : czrMaxSupply.toNat < 2 ^ 64 := UInt64.toNat_lt _
  have htotal := walletBalance_toNat (lt_of_le_of_lt hsupply hmax)
  have hthousand : (1000 : UInt64).toNat = 1000 := rfl
  have hdistributable : (walletBalance utxos - 1000).toNat = coins utxos - 1000 := by
    rw [UInt64.toNat_sub_of_le _ _ (by rw [UInt64.le_iff_toNat_le]; omega), htotal, hthousand]
  rw [hb.pool, UInt64.toNat_sub_of_le _ _ (by rw [UInt64.le_iff_toNat_le]; omega), hdistributable]

theorem take_outputs : plan.tx.outputs.take plan.recipients = workerOutputs plan.workerPool (totalPending snap) snap := by
  rw [hb.outputs, List.take_left' hb.recipients.symm]

theorem change_recipient : ∀ output ∈ plan.tx.outputs.drop plan.recipients, output.recipient = poolAddr := by
  rw [hb.outputs, List.drop_left' hb.recipients.symm]
  intro output houtput
  split at houtput
  · rw [List.mem_singleton.mp houtput]
  · cases houtput

theorem assigned_toNat (h : amounts (workerOutputs plan.workerPool (totalPending snap) snap) < 2 ^ 64) :
    plan.assigned.toNat = amounts (workerOutputs plan.workerPool (totalPending snap) snap) := by
  rw [hb.assigned, foldl_add_toNat _ _ _ (by simpa [amounts] using h)]
  exact Nat.zero_add _

/-- The change is what the coins are worth above the assigned amounts. -/
theorem conserved (hcoins : coins utxos < 2 ^ 64)
    (h : amounts (workerOutputs plan.workerPool (totalPending snap) snap) < 2 ^ 64) :
    ∃ spent, spent <+: utxos ∧ plan.tx.inputs = spent.map (fun utxo => ⟨utxo.txid, utxo.index⟩) ∧
      amounts plan.tx.outputs = coins spent := by
  obtain ⟨spent, hspent, -, hgather⟩ := gatherInputs_spent (plan.assigned + 5000) utxos [] 0
  have hle := coins_mono hspent
  have hgathered : (walletBalance spent).toNat = coins spent := walletBalance_toNat (by omega)
  unfold walletBalance at hgathered
  have hassigned := hb.assigned_toNat h
  have hcovered := hb.covered
  refine ⟨spent, hspent, ?_, ?_⟩
  · rw [hb.inputs, hgather]
    rfl
  · rw [hb.outputs, hgather]
    rw [hgather] at hcovered
    dsimp only at hcovered ⊢
    rw [UInt64.lt_iff_toNat_lt, hgathered, hassigned] at hcovered
    split
    · rename_i hlt
      unfold amounts at hassigned ⊢
      rw [List.map_append, List.sum_append, ← hassigned, List.map_singleton, List.sum_singleton,
        UInt64.toNat_sub_of_le _ _ (UInt64.le_of_lt hlt), hgathered]
      have := UInt64.lt_iff_toNat_lt.mp hlt
      omega
    · rename_i hnot
      rw [gt_iff_lt, UInt64.lt_iff_toNat_lt, hgathered, hassigned] at hnot
      rw [List.append_nil]
      omega

end PayoutPlan.Built

/-- A payout is exact if and only if the product of the pool and the shares of every worker fits into 64 bits. -/
theorem payout_amounts_exact_iff {wallet : PoolWallet} {poolAddr : Bytes} {feeAmount : UInt64 → UInt64}
    {workers : PoolWorkers} {utxos : List WalletUtxo} {plan : PayoutPlan}
    (hbuilt : buildPayout wallet poolAddr feeAmount workers.snapshot utxos = .ok plan)
    (hbalance : 10000 ≤ coins utxos) (hsupply : coins utxos ≤ czrMaxSupply.toNat)
    (hfee : plan.fee.toNat ≤ coins utxos - 1000) (hshares : sharesOf workers.entries < 2 ^ 64) :
    plan.PaysExactly poolAddr (coins utxos - 1000 - plan.fee.toNat) workers.entries utxos ↔
      ∀ item ∈ workers.entries, (coins utxos - 1000 - plan.fee.toNat) * item.2.toNat < 2 ^ 64 := by
  have hb := buildPayout_built hbuilt
  have hmax : czrMaxSupply.toNat < 2 ^ 64 := UInt64.toNat_lt _
  have hpool := hb.workerPool_toNat hbalance hsupply hfee
  have hsum : sharesOf workers.snapshot < 2 ^ 64 := by rwa [sharesOf_snapshot]
  rw [← hpool]
  constructor
  · intro hexact item hitem
    have hpayments := hexact.payments
    rw [hb.take_outputs, ← exactPayments_snapshot] at hpayments
    by_cases hpos : 0 < item.2
    · exact product_fits hsum hpayments (PoolWorkers.mem_snapshot.mpr ⟨hitem, hpos⟩)
    · rw [toNat_eq_zero hpos, Nat.mul_zero]
      decide
  · intro hfits
    have hparts : ∀ item ∈ workers.snapshot, (payoutAmount plan.workerPool (totalPending workers.snapshot) item.2).toNat =
        exactPart plan.workerPool.toNat workers.snapshot item.2 := by
      intro item hitem
      obtain ⟨hentry, hpos⟩ := PoolWorkers.mem_snapshot.mp hitem
      rw [UInt64.lt_iff_toNat_lt, UInt64.toNat_zero] at hpos
      exact (payoutAmount_exact_iff hsum (lt_of_lt_of_le hpos (shares_le_sharesOf hitem))).mpr (hfits item hentry)
    have hbounded := workerOutputs_bounded hparts
    refine ⟨?_, ?_, hb.change_recipient, hb.conserved (by omega) (by omega)⟩
    · rw [hb.take_outputs, ← exactPayments_snapshot]
      exact workerOutputs_payments hparts
    · rw [hb.take_outputs]
      exact hbounded

/-! ## Two workers -/

def toyPoolWallet : PoolWallet := ⟨.ok toyKey, fun _ => .ok [9]⟩

def toyCoin (amount : UInt64) : WalletUtxo := ⟨toyGenesis.hash toyCrypto, 0, amount⟩

theorem payout_amounts_exact_toy : ∃ plan,
    buildPayout toyPoolWallet [7] (fun _ => 0) (toyWorkers 1 3).snapshot [toyCoin 5000000000] = .ok plan ∧
      plan.PaysExactly [7] 4999999000 (toyWorkers 1 3).entries [toyCoin 5000000000] := by
  have hbuild : ((buildPayout toyPoolWallet [7] (fun _ => 0) (toyWorkers 1 3).snapshot [toyCoin 5000000000]).map
      PayoutPlan.fee) = .ok 0 := by decide +kernel
  obtain ⟨plan, hplan, hfee⟩ := exists_of_map_ok hbuild
  refine ⟨plan, hplan, ?_⟩
  have hpool : coins [toyCoin 5000000000] - 1000 - plan.fee.toNat = 4999999000 := by
    rw [hfee]
    rfl
  rw [← hpool]
  refine (payout_amounts_exact_iff hplan (by decide) (by decide) (by rw [hfee]; decide) (by decide)).mpr ?_
  rw [hpool]
  decide

/-- Two thirds of the shares get less than one third: the product of the pool and two million is above `2 ^ 64`. -/
theorem payout_product_wraps : 10000 ≤ coins [toyCoin 10000000000000] ∧
    coins [toyCoin 10000000000000] ≤ czrMaxSupply.toNat ∧
    exactPayments 9999999999000 (toyWorkers 2000000 1000000).entries = [([97], 6666666666000), ([98], 3333333333000)] ∧
    ∃ plan, buildPayout toyPoolWallet [7] (fun _ => 0) (toyWorkers 2000000 1000000).snapshot [toyCoin 10000000000000] =
        .ok plan ∧
      plan.tx.outputs.take plan.recipients = [⟨517751974763, [97]⟩, ⟨3333333333000, [98]⟩] ∧
      ¬ plan.PaysExactly [7] 9999999999000 (toyWorkers 2000000 1000000).entries [toyCoin 10000000000000] := by
  have hpayments : exactPayments 9999999999000 (toyWorkers 2000000 1000000).entries =
      [([97], 6666666666000), ([98], 3333333333000)] := by decide +kernel
  have hbuild : ((buildPayout toyPoolWallet [7] (fun _ => 0) (toyWorkers 2000000 1000000).snapshot
      [toyCoin 10000000000000]).map fun plan => plan.tx.outputs.take plan.recipients) =
        .ok [⟨517751974763, [97]⟩, ⟨3333333333000, [98]⟩] := by decide +kernel
  obtain ⟨plan, hplan, houtputs⟩ := exists_of_map_ok hbuild
  refine ⟨by decide, by decide, hpayments, plan, hplan, houtputs, ?_⟩
  intro hexact
  have hpaid := hexact.payments
  rw [houtputs, hpayments] at hpaid
  exact absurd hpaid (by decide)

end Caesar
