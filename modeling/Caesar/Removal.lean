import Caesar.Mempool

/-!
# Removing from the pool

`remove` takes a transaction out together with everything in the pool that
spends its outputs, directly or through others. It walks the map of the pool and
a set of ids in orders that C++ leaves open, and the byte count is a
`std::size_t`, which a subtraction wraps around.
-/

namespace Caesar

open Codec

/-- One pass over the map: an entry with an input from something that is removed is to be removed too. -/
def removalPass : List (Hash256 × Transaction) → Finset Hash256 → Bool → Finset Hash256 × Bool
  | [], removal, changed => (removal, changed)
  | (id, tx) :: rest, removal, changed =>
    if id ∈ removal then removalPass rest removal changed
    else if tx.inputs.any fun input => input.previousTxid ∈ removal then removalPass rest (insert id removal) true
    else removalPass rest removal changed

/-- The passes; each but the last adds an id, so their number is bounded by the entries. -/
def removalLoop (entries : List (Hash256 × Transaction)) : Nat → Finset Hash256 → Finset Hash256
  | 0, removal => removal
  | passes + 1, removal =>
    match removalPass entries removal false with
    | (removal, changed) => if !changed then removal else removalLoop entries passes removal

/-- `a - b` on `std::size_t`. -/
def sizeSub (a b : Nat) : Nat := (a + 2 ^ 64 - b) % 2 ^ 64

/-- The orders in which the map of a pool and a set of ids may be walked. -/
structure RemovalWalk (K : Crypto) where
  entries : Mempool K → List (Hash256 × Transaction)
  perm : ∀ pool, (entries pool).Perm (pool.transactions.entries.map fun entry => (entry.1, entry.2))
  ids : Finset Hash256 → List Hash256
  ids_nodup : ∀ s, (ids s).Nodup
  mem_ids : ∀ s id, id ∈ ids s ↔ id ∈ s

namespace Mempool

variable {K : Crypto}

/-- What the second loop of `remove` does to one entry. -/
def release (pool : Mempool K) (id : Hash256) (tx : Transaction) (size : Nat) : Mempool K where
  transactions := pool.transactions.erase id
  reservedInputs := pool.reservedInputs \ tx.points.toFinset
  mempoolBytes := sizeSub pool.mempoolBytes size
  keyed := by
    intro id' tx' h
    by_cases he : id' = id
    · subst he
      rw [AList.lookup_erase] at h
      cases h
    · rw [AList.lookup_erase_ne he] at h
      exact pool.keyed id' tx' h

/-- The second loop of `remove`; the reservations are dropped before the transaction is serialized. -/
def removeEach : List Hash256 → Mempool K → Result Unit × Mempool K
  | [], pool => (.ok (), pool)
  | id :: rest, pool =>
    match pool.transactions.lookup id with
    | none => removeEach rest pool
    | some tx =>
      match tx.serializeFullBinary with
      | .error e => (.error e, { pool with reservedInputs := pool.reservedInputs \ tx.points.toFinset })
      | .ok data => removeEach rest (pool.release id tx data.length)

def remove (walk : RemovalWalk K) (pool : Mempool K) (txid : Hash256) : Result Bool × Mempool K :=
  if !pool.contains txid then (.ok false, pool)
  else
    let removal := removalLoop (walk.entries pool) (walk.entries pool).length {txid}
    match removeEach (walk.ids removal) pool with
    | (.error e, pool) => (.error e, pool)
    | (.ok (), pool) => (.ok true, pool)

def clear (_ : Mempool K) : Mempool K := ⟨∅, ∅, 0, (empty K).keyed⟩

end Mempool

end Caesar
