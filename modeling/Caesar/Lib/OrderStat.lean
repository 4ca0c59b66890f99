import Mathlib

/-!
# Order statistics

The entry of a given rank in a list sorted upwards. Comparing it with a bound only
counts the entries below the bound (`rank_le_iff`), so it is monotone in every
entry, does not see their order, and stays between the extremes of any part of the
list that outnumbers the rest.
-/

namespace OrderStat

variable {α : Type} [LinearOrder α] {l m : List α} {d v : α} {k : Nat}

def rank (d : α) (l : List α) (k : Nat) : α := (l.insertionSort (· ≤ ·)).getD k d

theorem countP_le_eq_zero {a : α} (h : ∀ x ∈ l, a ≤ x) (hv : ¬ a ≤ v) : l.countP (· ≤ v) = 0 := by
  rw [List.countP_eq_zero]
  intro x hx hle
  exact hv ((h x hx).trans (of_decide_eq_true hle))

theorem getD_le_iff (hs : l.Pairwise (· ≤ ·)) (hk : k < l.length) :
    l.getD k d ≤ v ↔ k < l.countP (· ≤ v) := by
  induction l generalizing k with
  | nil => simp at hk
  | cons a l ih =>
    rw [List.pairwise_cons] at hs
    by_cases ha : a ≤ v
    · rw [List.countP_cons_of_pos (by simpa using ha)]
      cases k with
      | zero => simp [ha]
      | succ k =>
        rw [List.getD_cons_succ, ih hs.2 (by simpa using hk)]
        omega
    · -- everything from here on is above the bound
      rw [List.countP_cons_of_neg (by simpa using ha), countP_le_eq_zero hs.1 ha]
      cases k with
      | zero => simpa using ha
      | succ k =>
        have hk' : k < l.length := by simpa using hk
        have hge := hs.1 _ (List.getElem_mem hk')
        rw [List.getD_cons_succ, List.getD_eq_getElem _ _ hk']
        exact ⟨fun hle => absurd (hge.trans hle) ha, fun hlt => absurd hlt (Nat.not_lt_zero _)⟩

theorem rank_le_iff (hk : k < l.length) : rank d l k ≤ v ↔ k < l.countP (· ≤ v) := by
  have hperm := List.perm_insertionSort (· ≤ ·) l
  unfold rank
  rw [getD_le_iff (List.pairwise_insertionSort (· ≤ ·) l) (by rwa [hperm.length_eq]), hperm.countP_eq]

theorem rank_perm (h : l.Perm m) : rank d l k = rank d m k := by
  have hsort : l.insertionSort (· ≤ ·) = m.insertionSort (· ≤ ·) := by
    refine List.Perm.eq_of_pairwise (fun a b _ _ => le_antisymm) (List.pairwise_insertionSort (· ≤ ·) l)
      (List.pairwise_insertionSort (· ≤ ·) m) ?_
    exact (List.perm_insertionSort _ l).trans (h.trans (List.perm_insertionSort _ m).symm)
  unfold rank
  rw [hsort]

theorem countP_le_of_forall₂ (h : List.Forall₂ (· ≤ ·) l m) : m.countP (· ≤ v) ≤ l.countP (· ≤ v) := by
  induction h with
  | nil => simp
  | @cons a b l m hab _ ih =>
    by_cases hb : b ≤ v
    · rw [List.countP_cons_of_pos (by simpa using hb), List.countP_cons_of_pos (by simpa using hab.trans hb)]
      exact Nat.succ_le_succ ih
    · rw [List.countP_cons_of_neg (by simpa using hb), List.countP_cons]
      exact ih.trans (Nat.le_add_right _ _)

theorem rank_mono (h : List.Forall₂ (· ≤ ·) l m) (hk : k < l.length) : rank d l k ≤ rank d m k := by
  rw [rank_le_iff hk]
  have hm : k < m.length := by rwa [← h.length_eq]
  exact Nat.lt_of_lt_of_le ((rank_le_iff hm).mp le_rfl) (countP_le_of_forall₂ h)

theorem rank_le_of_sublist (hsub : m.Sublist l) (hk : k < m.length) (h : ∀ x ∈ m, x ≤ v) : rank d l k ≤ v := by
  rw [rank_le_iff (Nat.lt_of_lt_of_le hk hsub.length_le)]
  have hall : m.countP (· ≤ v) = m.length := by
    rw [List.countP_eq_length]
    exact fun x hx => decide_eq_true (h x hx)
  exact Nat.lt_of_lt_of_le (by rwa [hall]) (hsub.countP_le (p := (· ≤ v)))

theorem le_rank_of_sublist (hsub : m.Sublist l) (hk : k < l.length) (hm : l.length ≤ k + m.length)
    (h : ∀ x ∈ m, v ≤ x) : v ≤ rank d l k := by
  by_contra hlt
  have hbelow := (rank_le_iff (d := d) hk).mp le_rfl
  -- the entries of the part are all above the rank, and leave no room for `k + 1` others
  have hpart : m.countP (fun x => decide ¬ decide (x ≤ rank d l k) = true) = m.length := by
    rw [List.countP_eq_length]
    intro x hx
    simpa using (lt_of_not_ge hlt).trans_le (h x hx)
  have habove := hsub.countP_le (p := fun x => decide ¬ decide (x ≤ rank d l k) = true)
  have htotal := List.length_eq_countP_add_countP (l := l) fun x => decide (x ≤ rank d l k)
  omega

/-- Entries dropped, and one not below the statistic added: a rank no smaller gives no
smaller statistic. -/
theorem rank_le_rank_append {x : α} {k' : Nat} (hk : k < l.length) (hsub : m.Sublist l) (hx : rank d l k ≤ x)
    (hle : k ≤ k') (hk' : k' < (m ++ [x]).length) : rank d l k ≤ rank d (m ++ [x]) k' := by
  by_contra hlt
  have habove : ¬ x ≤ rank d (m ++ [x]) k' := fun h => hlt (hx.trans h)
  have hold := mt (rank_le_iff (d := d) hk).mpr hlt
  have hnew := (rank_le_iff (d := d) hk').mp le_rfl
  rw [List.countP_append, List.countP_cons_of_neg (by simpa using habove), List.countP_nil] at hnew
  have hdrop := hsub.countP_le (p := (· ≤ rank d (m ++ [x]) k'))
  omega

theorem rank_replicate {n : Nat} (hk : k < n) : rank d (List.replicate n v) k = v := by
  unfold rank
  rw [(List.pairwise_replicate_of_refl).insertionSort_eq, List.getD_eq_getElem _ _ (by simpa using hk),
    List.getElem_replicate]

end OrderStat
