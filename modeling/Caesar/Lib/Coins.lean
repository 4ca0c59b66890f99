import Mathlib.Data.Finmap
import Mathlib.Algebra.BigOperators.Group.Multiset.Basic
import Mathlib.Algebra.GroupWithZero.Nat

/-!
# Coin stores

A store is a finite map from keys to values. An entry spends some keys and then
creates some, failing when a spent key is missing or a created key is present.
The results are about sequences of entries: how often each key was created and
spent (`applyAll_count`), what the store is worth (`total`), which entries can
repeat (`square_inputs`, `ids_nodup`), when a sequence that applies to one store
applies to another (`applyAll_transfer`), and which orders apply
(`applyAll_of_inOrder`).
-/

namespace Coins

variable {I K V : Type}

abbrev Store (K V : Type) := Finmap fun _ : K => V

structure Entry (I K V : Type) where
  id : I
  inputs : List K
  outputs : List (K × V)

def Entry.keys (e : Entry I K V) : List K := e.outputs.map Prod.fst

def created (es : List (Entry I K V)) : List (K × V) := es.flatMap Entry.outputs

def spent (es : List (Entry I K V)) : List K := es.flatMap Entry.inputs

@[simp] theorem created_cons (e : Entry I K V) (es : List (Entry I K V)) :
    created (e :: es) = e.outputs ++ created es := rfl

@[simp] theorem spent_cons (e : Entry I K V) (es : List (Entry I K V)) :
    spent (e :: es) = e.inputs ++ spent es := rfl

@[simp] theorem created_append (es fs : List (Entry I K V)) : created (es ++ fs) = created es ++ created fs :=
  List.flatMap_append ..

@[simp] theorem spent_append (es fs : List (Entry I K V)) : spent (es ++ fs) = spent es ++ spent fs :=
  List.flatMap_append ..

theorem mem_created_keys {es : List (Entry I K V)} {k : K} :
    k ∈ (created es).map Prod.fst ↔ ∃ e ∈ es, k ∈ e.keys := by
  simp only [created, List.map_flatMap, List.mem_flatMap, Entry.keys]

theorem mem_spent {es : List (Entry I K V)} {k : K} : k ∈ spent es ↔ ∃ e ∈ es, k ∈ e.inputs := by
  simp only [spent, List.mem_flatMap]

variable [DecidableEq K]

def spendAll : List K → Store K V → Option (Store K V)
  | [], u => some u
  | k :: ks, u => if k ∈ u then spendAll ks (u.erase k) else none

def addAll : List (K × V) → Store K V → Option (Store K V)
  | [], u => some u
  | o :: os, u => if o.1 ∈ u then none else addAll os (u.insert o.1 o.2)

def apply (e : Entry I K V) (u : Store K V) : Option (Store K V) :=
  (spendAll e.inputs u).bind (addAll e.outputs)

def applyAll : List (Entry I K V) → Store K V → Option (Store K V)
  | [], u => some u
  | e :: es, u => (apply e u).bind (applyAll es)

def lastValue (k : K) (l : List (K × V)) : Option V := ((l.filter fun p => p.1 = k).getLast?).map Prod.snd

def held (u : Store K V) (k : K) : Nat := if k ∈ u then 1 else 0

/-! ## Spending and adding -/

theorem held_erase (u : Store K V) (k j : K) (hk : k ∈ u) :
    held u j = (if k = j then 1 else 0) + held (u.erase k) j := by
  by_cases h : k = j
  · subst h; simp [held, hk]
  · by_cases hj : j ∈ u <;> simp [held, hj, h, Ne.symm h]

theorem held_insert (u : Store K V) (k j : K) (v : V) (hk : k ∉ u) :
    held (u.insert k v) j = (if k = j then 1 else 0) + held u j := by
  by_cases h : k = j
  · subst h; simp [held, hk]
  · by_cases hj : j ∈ u <;> simp [held, hj, h, Ne.symm h]

theorem spendAll_count : ∀ {ks : List K} {u u' : Store K V}, spendAll ks u = some u' →
    ∀ j, held u j = ks.count j + held u' j
  | [], u, u', h, j => by simp only [spendAll, Option.some.injEq] at h; subst h; simp
  | k :: ks, u, u', h, j => by
    simp only [spendAll] at h
    split at h
    · rename_i hk
      rw [held_erase u k j hk, spendAll_count h j, List.count_cons]
      by_cases hkj : k = j <;> simp [hkj]; omega
    · cases h

theorem addAll_count : ∀ {os : List (K × V)} {u u' : Store K V}, addAll os u = some u' →
    ∀ j, (os.map Prod.fst).count j + held u j = held u' j
  | [], u, u', h, j => by simp only [addAll, Option.some.injEq] at h; subst h; simp
  | o :: os, u, u', h, j => by
    simp only [addAll] at h
    split at h
    · cases h
    · rename_i hk
      rw [← addAll_count h j, held_insert u o.1 j o.2 hk, List.map_cons, List.count_cons]
      by_cases hkj : o.1 = j <;> simp [hkj]; omega

theorem spendAll_lookup : ∀ {ks : List K} {u u' : Store K V}, spendAll ks u = some u' →
    ∀ j, u'.lookup j = if j ∈ ks then none else u.lookup j
  | [], u, u', h, j => by simp only [spendAll, Option.some.injEq] at h; subst h; simp
  | k :: ks, u, u', h, j => by
    simp only [spendAll] at h
    split at h
    · rw [spendAll_lookup h j]
      by_cases hj : j ∈ ks
      · simp [hj]
      · by_cases hkj : j = k
        · subst hkj; simp
        · simp [hj, hkj]
    · cases h

theorem spendAll_isSome : ∀ {ks : List K} {u : Store K V}, ks.Nodup → (∀ k ∈ ks, k ∈ u) → ∃ u', spendAll ks u = some u'
  | [], u, _, _ => ⟨u, rfl⟩
  | k :: ks, u, hn, hm => by
    rw [List.nodup_cons] at hn
    simp only [spendAll, hm k (by simp), ite_true]
    refine spendAll_isSome hn.2 fun j hj => ?_
    rw [Finmap.mem_erase]
    exact ⟨fun e => hn.1 (e ▸ hj), hm j (by simp [hj])⟩

theorem mem_of_spendAll : ∀ {ks : List K} {u u' : Store K V}, spendAll ks u = some u' →
    ks.Nodup ∧ ∀ k ∈ ks, k ∈ u
  | [], _, _, _ => ⟨List.nodup_nil, by simp⟩
  | k :: ks, u, u', h => by
    simp only [spendAll] at h
    split at h
    · rename_i hk
      obtain ⟨hn, hm⟩ := mem_of_spendAll h
      refine ⟨List.nodup_cons.mpr ⟨fun hkk => ?_, hn⟩, fun j hj => ?_⟩
      · exact (Finmap.mem_erase.mp (hm k hkk)).1 rfl
      · rcases List.mem_cons.mp hj with rfl | hj
        · exact hk
        · exact (Finmap.mem_erase.mp (hm j hj)).2
    · cases h

theorem mem_of_mem_spendAll {ks : List K} {u u' : Store K V} (h : spendAll ks u = some u') {k : K} (hk : k ∈ u') :
    k ∈ u := by
  rw [Finmap.mem_iff] at hk ⊢
  obtain ⟨v, hv⟩ := hk
  rw [spendAll_lookup h k] at hv
  split at hv
  · cases hv
  · exact ⟨v, hv⟩

theorem addAll_isSome : ∀ {os : List (K × V)} {u : Store K V}, (os.map Prod.fst).Nodup →
    (∀ k ∈ os.map Prod.fst, k ∉ u) → ∃ u', addAll os u = some u'
  | [], u, _, _ => ⟨u, rfl⟩
  | o :: os, u, hn, hm => by
    rw [List.map_cons, List.nodup_cons] at hn
    simp only [addAll, hm o.1 (by simp), ite_false]
    refine addAll_isSome hn.2 fun j hj => ?_
    rw [Finmap.mem_insert, not_or]
    exact ⟨fun e => hn.1 (e ▸ hj), hm j (by rw [List.map_cons]; exact List.mem_cons_of_mem _ hj)⟩

theorem addAll_nodup : ∀ {os : List (K × V)} {u u' : Store K V}, addAll os u = some u' →
    (os.map Prod.fst).Nodup ∧ ∀ k ∈ os.map Prod.fst, k ∉ u
  | [], _, _, _ => ⟨List.nodup_nil, by simp⟩
  | o :: os, u, u', h => by
    simp only [addAll] at h
    split at h
    · cases h
    · rename_i hk
      obtain ⟨hn, hm⟩ := addAll_nodup h
      refine ⟨List.nodup_cons.mpr ⟨fun hkk => ?_, hn⟩, fun j hj => ?_⟩
      · exact hm _ hkk (Finmap.mem_insert.mpr (Or.inl rfl))
      · rcases List.mem_cons.mp hj with rfl | hj
        · exact hk
        · exact fun hju => hm j hj (Finmap.mem_insert.mpr (Or.inr hju))

theorem addAll_lookup : ∀ {os : List (K × V)} {u u' : Store K V}, addAll os u = some u' →
    ∀ j, u'.lookup j = (lastValue j os).or (u.lookup j)
  | [], u, u', h, j => by simp only [addAll, Option.some.injEq] at h; subst h; simp [lastValue]
  | o :: os, u, u', h, j => by
    have hnd := (addAll_nodup h).1
    simp only [addAll] at h
    split at h
    · cases h
    · rw [addAll_lookup h j]
      unfold lastValue
      by_cases hoj : o.1 = j
      · subst hoj
        rw [List.map_cons, List.nodup_cons] at hnd
        have hnil : os.filter (fun p => p.1 = o.1) = [] := by
          rw [List.filter_eq_nil_iff]
          intro p hp hpe
          exact hnd.1 (List.mem_map.mpr ⟨p, hp, by simpa using hpe⟩)
        simp [hnil]
      · have : (o :: os).filter (fun p => p.1 = j) = os.filter fun p => p.1 = j := by simp [hoj]
        rw [this, Finmap.lookup_insert_of_ne _ (Ne.symm hoj)]

/-! ## Sequences of entries -/

theorem apply_eq_some {e : Entry I K V} {u u' : Store K V} :
    apply e u = some u' ↔ ∃ w, spendAll e.inputs u = some w ∧ addAll e.outputs w = some u' := by
  simp [apply, Option.bind_eq_some_iff]

theorem applyAll_append : ∀ (es fs : List (Entry I K V)) (u : Store K V),
    applyAll (es ++ fs) u = (applyAll es u).bind (applyAll fs)
  | [], fs, u => rfl
  | e :: es, fs, u => by
    simp only [List.cons_append, applyAll]
    cases apply e u with
    | none => rfl
    | some w => simp [applyAll_append es fs w]

theorem applyAll_append_some {es fs : List (Entry I K V)} {u u' : Store K V} :
    applyAll (es ++ fs) u = some u' ↔ ∃ w, applyAll es u = some w ∧ applyAll fs w = some u' := by
  rw [applyAll_append, Option.bind_eq_some_iff]

theorem applyAll_cons_some {e : Entry I K V} {es : List (Entry I K V)} {u u' : Store K V} :
    applyAll (e :: es) u = some u' ↔ ∃ w, apply e u = some w ∧ applyAll es w = some u' := by
  rw [applyAll, Option.bind_eq_some_iff]

theorem apply_count {e : Entry I K V} {u u' : Store K V} (h : apply e u = some u') (j : K) :
    e.keys.count j + held u j = e.inputs.count j + held u' j := by
  obtain ⟨w, hs, ha⟩ := apply_eq_some.mp h
  have h₁ := spendAll_count hs j
  have h₂ := addAll_count ha j
  unfold Entry.keys
  omega

/-- Every key is created as often as it is spent, up to what the store held before and holds after. -/
theorem applyAll_count : ∀ {es : List (Entry I K V)} {u u' : Store K V}, applyAll es u = some u' → ∀ j,
    ((created es).map Prod.fst).count j + held u j = (spent es).count j + held u' j
  | [], u, u', h, j => by simp only [applyAll, Option.some.injEq] at h; subst h; simp [created, spent]
  | e :: es, u, u', h, j => by
    obtain ⟨w, he, hes⟩ := applyAll_cons_some.mp h
    have h₁ := apply_count he j
    have h₂ := applyAll_count hes j
    simp only [created_cons, spent_cons, List.map_append, List.count_append]
    unfold Entry.keys at h₁
    omega

theorem held_eq_one {u : Store K V} {k : K} : held u k = 1 ↔ k ∈ u := by
  by_cases h : k ∈ u <;> simp [held, h]

theorem held_le_one (u : Store K V) (k : K) : held u k ≤ 1 := by
  unfold held; split <;> omega

theorem mem_of_applyAll {es : List (Entry I K V)} {u u' : Store K V} (h : applyAll es u = some u') {k : K}
    (hk : k ∈ u') : k ∈ u ∨ k ∈ (created es).map Prod.fst := by
  have hc := applyAll_count h k
  rw [held_eq_one.mpr hk] at hc
  by_cases hku : k ∈ u
  · exact Or.inl hku
  · refine Or.inr (List.count_pos_iff.mp ?_)
    simp only [held, hku, ite_false] at hc
    omega

theorem mem_applyAll {es : List (Entry I K V)} {u u' : Store K V} (h : applyAll es u = some u') {k : K}
    (hk : k ∈ u ∨ k ∈ (created es).map Prod.fst) (hs : k ∉ spent es) : k ∈ u' := by
  have hc := applyAll_count h k
  have hl := held_le_one u' k
  rw [List.count_eq_zero_of_not_mem hs] at hc
  rw [← held_eq_one]
  rcases hk with hk | hk
  · rw [held_eq_one.mpr hk] at hc; omega
  · have := List.count_pos_iff.mpr hk; omega

theorem lastValue_append (k : K) (l m : List (K × V)) :
    lastValue k (l ++ m) = (lastValue k m).or (lastValue k l) := by
  unfold lastValue
  rw [List.filter_append, List.getLast?_append]
  cases (m.filter fun p => p.1 = k).getLast? <;> simp

theorem lastValue_eq_none {k : K} {l : List (K × V)} (h : k ∉ l.map Prod.fst) : lastValue k l = none := by
  have hnil : (l.filter fun p => p.1 = k) = [] := by
    rw [List.filter_eq_nil_iff]
    intro p hp he
    exact h (List.mem_map.mpr ⟨p, hp, of_decide_eq_true he⟩)
  rw [lastValue, hnil]
  rfl

/-- A key that is neither spent nor created keeps its value. -/
theorem applyAll_lookup_eq : ∀ {es : List (Entry I K V)} {u u' : Store K V}, applyAll es u = some u' → ∀ {k : K},
    k ∉ spent es → k ∉ (created es).map Prod.fst → u'.lookup k = u.lookup k
  | [], u, u', h, k, _, _ => by
    simp only [applyAll, Option.some.injEq] at h
    rw [h]
  | e :: es, u, u', h, k, hs, hc => by
    obtain ⟨w, hw, h⟩ := applyAll_cons_some.mp h
    obtain ⟨z, hz, ha⟩ := apply_eq_some.mp hw
    simp only [spent_cons, created_cons, List.map_append, List.mem_append, not_or] at hs hc
    rw [applyAll_lookup_eq h hs.2 hc.2, addAll_lookup ha, lastValue_eq_none hc.1, spendAll_lookup hz, if_neg hs.1]
    rfl

theorem applyAll_lookup : ∀ {es : List (Entry I K V)} {u u' : Store K V}, applyAll es u = some u' →
    ∀ j v, u'.lookup j = some v → (lastValue j (created es)).or (u.lookup j) = some v
  | [], u, u', h, j, v, hv => by
    simp only [applyAll, Option.some.injEq] at h; subst h; simpa [created, lastValue] using hv
  | e :: es, u, u', h, j, v, hv => by
    obtain ⟨w, he, hes⟩ := applyAll_cons_some.mp h
    obtain ⟨x, hs, ha⟩ := apply_eq_some.mp he
    have ih := applyAll_lookup hes j v hv
    rw [created_cons, lastValue_append, Option.or_assoc]
    rw [addAll_lookup ha j, spendAll_lookup hs j] at ih
    cases hl : lastValue j (created es) with
    | some a => rw [hl] at ih; simpa using ih
    | none =>
      rw [hl] at ih
      simp only [Option.none_or] at ih ⊢
      by_cases hj : j ∈ e.inputs
      · simp only [hj, ite_true, Option.or_none] at ih
        simp [ih]
      · simpa [hj] using ih

theorem mem_of_lastValue {k : K} {v : V} {l : List (K × V)} (h : lastValue k l = some v) : (k, v) ∈ l := by
  obtain ⟨p, hp, rfl⟩ := Option.map_eq_some_iff.mp h
  obtain ⟨hmem, hk⟩ := List.mem_filter.mp (List.mem_of_getLast? hp)
  rw [← of_decide_eq_true hk]
  exact hmem

/-- When no key is created twice the order no longer matters: the store holds what was created and not spent. -/
theorem lookup_iff_unspent {es fs : List (Entry I K V)} {u : Store K V} (h : applyAll es ∅ = some u) (hp : es.Perm fs)
    (hn : ((created fs).map Prod.fst).Nodup) {k : K} {v : V} :
    u.lookup k = some v ↔ (k, v) ∈ created fs ∧ k ∉ spent fs := by
  have hmem : ∀ p, p ∈ created es ↔ p ∈ created fs := fun p => (hp.flatMap_right Entry.outputs).mem_iff
  have hspent : k ∈ spent es ↔ k ∈ spent fs := (hp.flatMap_right Entry.inputs).mem_iff
  have hcreated : ∀ {v : V}, u.lookup k = some v → (k, v) ∈ created fs := by
    intro v hv
    have hlast := applyAll_lookup h k v hv
    rw [Finmap.lookup_empty, Option.or_none] at hlast
    exact (hmem _).mp (mem_of_lastValue hlast)
  constructor
  · intro hv
    refine ⟨hcreated hv, fun hs => ?_⟩
    have hcount := applyAll_count h k
    have hone : ((created es).map Prod.fst).count k ≤ 1 :=
      List.nodup_iff_count_le_one.mp (((hp.flatMap_right Entry.outputs).map Prod.fst).nodup_iff.mpr hn) k
    have hempty : held (∅ : Store K V) k = 0 := if_neg Finmap.notMem_empty
    have hpos := List.count_pos_iff.mpr (hspent.mpr hs)
    rw [hempty, held_eq_one.mpr (Finmap.mem_of_lookup_eq_some hv)] at hcount
    omega
  · rintro ⟨hc, hs⟩
    have hku : k ∈ u := mem_applyAll h (Or.inr (List.mem_map_of_mem ((hmem _).mpr hc))) (fun hk => hs (hspent.mp hk))
    obtain ⟨v', hv'⟩ := Finmap.mem_iff.mp hku
    have heq : ((k, v') : K × V) = (k, v) := List.inj_on_of_nodup_map hn (hcreated hv') hc rfl
    rw [hv', (Prod.mk.inj heq).2]

/-! ## Value -/

section
variable (f : V → Nat)

def total (u : Store K V) : Nat := (u.entries.map fun p => f p.2).sum

def valueAt (u : Store K V) (k : K) : Nat := ((u.lookup k).map f).getD 0

theorem total_insert {u : Store K V} {k : K} (v : V) (hk : k ∉ u) :
    total f (u.insert k v) = f v + total f u := by
  unfold total
  rw [Finmap.entries_insert_of_notMem hk, Multiset.map_cons, Multiset.sum_cons]

theorem insert_erase {u : Store K V} {k : K} {v : V} (h : u.lookup k = some v) : (u.erase k).insert k v = u := by
  apply Finmap.ext_lookup
  intro j
  by_cases hj : j = k
  · subst hj; rw [Finmap.lookup_insert, h]
  · rw [Finmap.lookup_insert_of_ne _ hj, Finmap.lookup_erase_ne hj]

theorem total_erase {u : Store K V} {k : K} (hk : k ∈ u) : total f u = valueAt f u k + total f (u.erase k) := by
  obtain ⟨v, hv⟩ := Finmap.mem_iff.mp hk
  have := total_insert f (u := u.erase k) (k := k) v (by simp)
  rw [insert_erase hv] at this
  rw [this, valueAt, hv]
  rfl

theorem spendAll_total : ∀ {ks : List K} {u u' : Store K V}, spendAll ks u = some u' →
    total f u = (ks.map (valueAt f u)).sum + total f u'
  | [], u, u', h => by simp only [spendAll, Option.some.injEq] at h; subst h; simp
  | k :: ks, u, u', h => by
    have hn := (mem_of_spendAll h).1
    simp only [spendAll] at h
    split at h
    · rename_i hk
      rw [total_erase f hk, spendAll_total h, List.map_cons, List.sum_cons, Nat.add_assoc]
      rw [List.nodup_cons] at hn
      have : ks.map (valueAt f (u.erase k)) = ks.map (valueAt f u) := by
        apply List.map_congr_left
        intro j hj
        unfold valueAt
        rw [Finmap.lookup_erase_ne (fun e : j = k => hn.1 (e ▸ hj))]
      rw [this]
    · cases h

theorem addAll_total : ∀ {os : List (K × V)} {u u' : Store K V}, addAll os u = some u' →
    total f u' = (os.map fun o => f o.2).sum + total f u
  | [], u, u', h => by simp only [addAll, Option.some.injEq] at h; subst h; simp
  | o :: os, u, u', h => by
    simp only [addAll] at h
    split at h
    · cases h
    · rename_i hk
      rw [addAll_total h, total_insert f o.2 hk, List.map_cons, List.sum_cons]
      omega

theorem apply_total {e : Entry I K V} {u u' : Store K V} (h : apply e u = some u') :
    total f u' + (e.inputs.map (valueAt f u)).sum = total f u + (e.outputs.map fun o => f o.2).sum := by
  obtain ⟨w, hs, ha⟩ := apply_eq_some.mp h
  have h₁ := spendAll_total f hs
  have h₂ := addAll_total f ha
  omega

end

/-! ## Repeated entries -/

/-- When a segment is applied twice in a row, each of its inputs is created by the segment. -/
theorem square_inputs {s s' : List (Entry I K V)} {u u' : Store K V} (hs : s.map Entry.inputs = s'.map Entry.inputs)
    (h : applyAll (s ++ s') u = some u') {e : Entry I K V} (he : e ∈ s) {k : K} (hk : k ∈ e.inputs) :
    k ∈ (created (s ++ s')).map Prod.fst := by
  obtain ⟨a, b, rfl⟩ := List.append_of_mem he
  rw [List.map_append, List.map_cons] at hs
  obtain ⟨a', c, rfl, ha', hc⟩ := List.map_eq_append_iff.mp hs.symm
  obtain ⟨e', b', rfl, he', hb'⟩ := List.map_eq_cons_iff.mp hc
  -- what runs before the second copy of `e` already spends `k` once, and `k` is there again
  have hsplit : (a ++ e :: b) ++ (a' ++ e' :: b') = (a ++ e :: b ++ a') ++ e' :: b' := by simp
  rw [hsplit] at h
  obtain ⟨w, hw, hw'⟩ := applyAll_append_some.mp h
  obtain ⟨x, hx, -⟩ := applyAll_cons_some.mp hw'
  obtain ⟨y, hy, -⟩ := apply_eq_some.mp hx
  have hkw : k ∈ w := (mem_of_spendAll hy).2 k (by rw [he']; exact hk)
  have hc := applyAll_count hw k
  rw [held_eq_one.mpr hkw] at hc
  have hpos : 0 < (spent (a ++ e :: b ++ a')).count k :=
    List.count_pos_iff.mpr (by simp [hk])
  have hle := held_le_one u k
  have : k ∈ (created (a ++ e :: b ++ a')).map Prod.fst := List.count_pos_iff.mp (by omega)
  rw [hsplit, created_append, List.map_append]
  exact List.mem_append_left _ this

section
variable (owner : K → I)

theorem count_created_le_one : ∀ {es : List (Entry I K V)}, (∀ e ∈ es, ∀ k ∈ e.keys, owner k = e.id) →
    (∀ e ∈ es, e.keys.Nodup) → (es.map Entry.id).Nodup → ∀ k, ((created es).map Prod.fst).count k ≤ 1
  | [], _, _, _, k => by simp [created]
  | e :: es, ho, hk, hn, k => by
    rw [List.map_cons, List.nodup_cons] at hn
    have ih := count_created_le_one (fun f hf => ho f (by simp [hf])) (fun f hf => hk f (by simp [hf])) hn.2 k
    have he := List.nodup_iff_count_le_one.mp (hk e (by simp)) k
    rw [created_cons, List.map_append, List.count_append]
    by_cases hke : k ∈ e.keys
    · have : k ∉ (created es).map Prod.fst := by
        intro hm
        obtain ⟨f, hf, hkf⟩ := mem_created_keys.mp hm
        exact hn.1 (List.mem_map.mpr ⟨f, hf, by rw [← ho f (by simp [hf]) k hkf, ho e (by simp) k hke]⟩)
      rw [List.count_eq_zero_of_not_mem this]
      exact he
    · have : (e.outputs.map Prod.fst).count k = 0 := List.count_eq_zero_of_not_mem hke
      omega

/-- Ids repeat only if the ids of entries without inputs do: a repeated entry needs its inputs to be created again. -/
theorem ids_nodup {es : List (Entry I K V)} {u : Store K V} (h : applyAll es ∅ = some u)
    (ho : ∀ e ∈ es, ∀ k ∈ e.keys, owner k = e.id) (hk : ∀ e ∈ es, e.keys.Nodup)
    (hi : ∀ e ∈ es, ∀ f ∈ es, e.id = f.id → e.inputs = f.inputs)
    (hr : ((es.filter fun e => e.inputs.isEmpty).map Entry.id).Nodup) : (es.map Entry.id).Nodup := by
  induction es using List.reverseRecOn generalizing u with
  | nil => exact List.nodup_nil
  | append_singleton es e ih =>
    obtain ⟨w, hw, he⟩ := applyAll_append_some.mp h
    have hsub : ∀ f ∈ es, f ∈ es ++ [e] := fun f hf => List.mem_append_left _ hf
    rw [List.filter_append, List.map_append] at hr
    have hn := ih hw (fun f hf => ho f (hsub f hf)) (fun f hf => hk f (hsub f hf))
      (fun f hf g hg => hi f (hsub f hf) g (hsub g hg)) (List.nodup_append.mp hr).1
    rw [List.map_append]
    refine List.nodup_append.mpr ⟨hn, by simp, ?_⟩
    intro i hi' j hj hij
    simp only [List.map_cons, List.map_nil, List.mem_singleton] at hj
    subst hij hj
    obtain ⟨f, hf, hfe⟩ := List.mem_map.mp hi'
    have hin := hi f (hsub f hf) e (by simp) hfe
    cases hinp : e.inputs with
    | nil =>
      -- both copies have no inputs, so their ids are already listed twice
      refine (List.nodup_append.mp hr).2.2 f.id ?_ e.id ?_ hfe
      · exact List.mem_map.mpr ⟨f, List.mem_filter.mpr ⟨hf, by simp [hin, hinp]⟩, rfl⟩
      · simp [hinp]
    | cons k ks =>
      obtain ⟨x, hx, -⟩ := applyAll_cons_some.mp he
      obtain ⟨y, hy, -⟩ := apply_eq_some.mp hx
      have hkw : k ∈ w := (mem_of_spendAll hy).2 k (by simp [hinp])
      have hc := applyAll_count hw k
      rw [held_eq_one.mpr hkw] at hc
      have hone := count_created_le_one owner (fun f hf => ho f (hsub f hf)) (fun f hf => hk f (hsub f hf)) hn k
      have hsp : 0 < (spent es).count k :=
        List.count_pos_iff.mpr (mem_spent.mpr ⟨f, hf, by simp [hin, hinp]⟩)
      have hz : held (∅ : Store K V) k = 0 := if_neg Finmap.notMem_empty
      omega

end

/-! ## Changing the store -/

/-- The keys that `es` creates are distinct and absent. -/
structure Fresh (es : List (Entry I K V)) (u : Store K V) : Prop where
  nodup : ((created es).map Prod.fst).Nodup
  absent : ∀ k ∈ (created es).map Prod.fst, k ∉ u

omit [DecidableEq K] in
theorem fresh_singleton {e : Entry I K V} {u : Store K V} : Fresh [e] u ↔ e.keys.Nodup ∧ ∀ k ∈ e.keys, k ∉ u := by
  have hkeys : (created [e]).map Prod.fst = e.keys := by
    rw [created, List.flatMap_singleton, Entry.keys]
  constructor
  · intro h
    exact ⟨hkeys ▸ h.nodup, hkeys ▸ h.absent⟩
  · rintro ⟨hn, habs⟩
    exact ⟨hkeys ▸ hn, hkeys ▸ habs⟩

omit [DecidableEq K] in
theorem created_perm {es fs : List (Entry I K V)} (h : es.Perm fs) :
    ((created es).map Prod.fst).Perm ((created fs).map Prod.fst) :=
  (h.flatMap_right Entry.outputs).map Prod.fst

omit [DecidableEq K] in
theorem Fresh.perm {es fs : List (Entry I K V)} {u : Store K V} (h : Fresh es u) (hp : es.Perm fs) : Fresh fs u :=
  ⟨(created_perm hp).nodup_iff.mp h.nodup, fun k hk => h.absent k ((created_perm hp).mem_iff.mpr hk)⟩

theorem held_eq_zero {u : Store K V} {k : K} : held u k = 0 ↔ k ∉ u := by
  by_cases h : k ∈ u <;> simp [held, h]

theorem Fresh.tail {e : Entry I K V} {es : List (Entry I K V)} {u u' : Store K V} (hf : Fresh (e :: es) u)
    (hu' : apply e u = some u') : Fresh es u' := by
  have hn := hf.nodup
  rw [created_cons, List.map_append, List.nodup_append] at hn
  refine ⟨hn.2.1, fun k hk hku => ?_⟩
  have hc := apply_count hu' k
  have hke : e.keys.count k = 0 := List.count_eq_zero_of_not_mem fun hke => hn.2.2 k hke k hk rfl
  have hkn : k ∉ u := hf.absent k (by rw [created_cons, List.map_append]; exact List.mem_append_right _ hk)
  rw [held_eq_one.mpr hku, held_eq_zero.mpr hkn] at hc
  omega

/-- An entry whose inputs are there applies to a store in which nothing it creates is. -/
theorem Fresh.apply {e : Entry I K V} {es : List (Entry I K V)} {u : Store K V} (hf : Fresh (e :: es) u)
    (hn : e.inputs.Nodup) (hin : ∀ k ∈ e.inputs, k ∈ u) : ∃ u', apply e u = some u' ∧ Fresh es u' := by
  have hkeys := hf.nodup
  rw [created_cons, List.map_append, List.nodup_append] at hkeys
  obtain ⟨y, hy⟩ := spendAll_isSome hn hin
  have hnew : ∀ k ∈ e.outputs.map Prod.fst, k ∉ y := fun k hk hky =>
    hf.absent k (by rw [created_cons, List.map_append]; exact List.mem_append_left _ hk) (mem_of_mem_spendAll hy hky)
  obtain ⟨u', hu'⟩ := addAll_isSome hkeys.1 hnew
  have hstep : Coins.apply e u = some u' := apply_eq_some.mpr ⟨y, hy, hu'⟩
  exact ⟨u', hstep, hf.tail hstep⟩

theorem Fresh.drop : ∀ {l r : List (Entry I K V)} {u x : Store K V}, Fresh (l ++ r) u → applyAll l u = some x → Fresh r x
  | [], _, _, _, hf, h => by
    obtain rfl := Option.some.inj h
    exact hf
  | _ :: _, _, _, _, hf, h => by
    obtain ⟨u', hu', h⟩ := applyAll_cons_some.mp h
    exact (hf.tail hu').drop h

omit [DecidableEq K] in
theorem Fresh.left {l r : List (Entry I K V)} {u : Store K V} (hf : Fresh (l ++ r) u) : Fresh l u := by
  have hn := hf.nodup
  have habs := hf.absent
  rw [created_append, List.map_append] at hn habs
  exact ⟨(List.nodup_append.mp hn).1, fun k hk => habs k (List.mem_append_left _ hk)⟩

omit [DecidableEq K] in
theorem Fresh.sublist {es fs : List (Entry I K V)} {u : Store K V} (h : Fresh fs u) (hs : es.Sublist fs) : Fresh es u := by
  have hkeys : ((created es).map Prod.fst).Sublist ((created fs).map Prod.fst) :=
    (hs.flatMap Entry.outputs).map Prod.fst
  exact ⟨h.nodup.sublist hkeys, fun k hk => h.absent k (hkeys.subset hk)⟩

/-- A key kept between two stores is kept between what one entry makes of them. -/
theorem mem_of_apply_both {e : Entry I K V} {u u' x x' : Store K V} {k : K} (hx : Coins.apply e u = some x)
    (hx' : Coins.apply e u' = some x') (hkeep : k ∈ u → k ∈ u') (hk : k ∈ x) : k ∈ x' := by
  have h₁ := apply_count hx k
  have h₂ := apply_count hx' k
  have h₃ := held_le_one x' k
  rw [held_eq_one.mpr hk] at h₁
  rw [← held_eq_one]
  by_cases hku : k ∈ u
  · rw [held_eq_one.mpr hku] at h₁
    rw [held_eq_one.mpr (hkeep hku)] at h₂
    omega
  · rw [held_eq_zero.mpr hku] at h₁
    omega

/-- A sequence applies to `u'` when it applies to `u`, `u'` keeps the inputs found in `u` and holds no output. -/
theorem applyAll_transfer : ∀ {es : List (Entry I K V)} {u u' w : Store K V}, applyAll es u = some w →
    (∀ k ∈ spent es, k ∈ u → k ∈ u') → Fresh es u' → ∃ w', applyAll es u' = some w'
  | [], _, u', _, _, _, _ => ⟨u', rfl⟩
  | e :: es, u, u', w, h, hin, hf => by
    obtain ⟨x, hx, hes⟩ := applyAll_cons_some.mp h
    obtain ⟨y, hy, -⟩ := apply_eq_some.mp hx
    obtain ⟨hnd, hmem⟩ := mem_of_spendAll hy
    obtain ⟨x', hstep, hf'⟩ := hf.apply hnd fun k hk => hin k (by simp [hk]) (hmem k hk)
    have hin' : ∀ k ∈ spent es, k ∈ x → k ∈ x' := fun k hk => mem_of_apply_both hx hstep (hin k (by simp [hk]))
    obtain ⟨w', hw'⟩ := applyAll_transfer hes hin' hf'
    exact ⟨w', applyAll_cons_some.mpr ⟨x', hstep, hw'⟩⟩

/-- Leaving out entries, when no entry that stays spends what one left out creates: the others
still apply, from any store that keeps the inputs found in `u`. -/
theorem applyAll_filter {p : Entry I K V → Bool} : ∀ {es : List (Entry I K V)} {u u' w : Store K V},
    applyAll es u = some w → (∀ e ∈ es, p e = true → ∀ d ∈ es, p d = false → ∀ k ∈ e.inputs, k ∉ d.keys) →
    (∀ k ∈ spent (es.filter p), k ∈ u → k ∈ u') → Fresh (es.filter p) u' → ∃ w', applyAll (es.filter p) u' = some w'
  | [], _, u', _, _, _, _, _ => ⟨u', rfl⟩
  | e :: es, u, u', w, h, hclosed, hin, hf => by
    obtain ⟨x, hx, hes⟩ := applyAll_cons_some.mp h
    have hcx : ∀ k, e.keys.count k + held u k = e.inputs.count k + held x k := apply_count hx
    have hclosed' : ∀ f ∈ es, p f = true → ∀ d ∈ es, p d = false → ∀ k ∈ f.inputs, k ∉ d.keys :=
      fun f hf hpf d hd => hclosed f (List.mem_cons_of_mem e hf) hpf d (List.mem_cons_of_mem e hd)
    by_cases hp : p e = true
    · rw [List.filter_cons_of_pos hp] at hin hf ⊢
      obtain ⟨y, hy, -⟩ := apply_eq_some.mp hx
      obtain ⟨hnd, hmem⟩ := mem_of_spendAll hy
      obtain ⟨x', hstep, hf'⟩ := hf.apply hnd fun k hk => hin k (by simp [hk]) (hmem k hk)
      have hin' : ∀ k ∈ spent (es.filter p), k ∈ x → k ∈ x' := by
        intro k hk
        exact mem_of_apply_both hx hstep (hin k (by simp [hk]))
      obtain ⟨w', hw'⟩ := applyAll_filter hes hclosed' hin' hf'
      exact ⟨w', applyAll_cons_some.mpr ⟨x', hstep, hw'⟩⟩
    · rw [List.filter_cons_of_neg hp] at hin hf ⊢
      refine applyAll_filter hes hclosed' ?_ hf
      intro k hk hkx
      apply hin k hk
      -- what the entry left out adds is spent by none of those that stay
      obtain ⟨f, hfmem, hkf⟩ := mem_spent.mp hk
      obtain ⟨hfes, hpf⟩ := List.mem_filter.mp hfmem
      have hnew : k ∉ e.keys :=
        hclosed f (List.mem_cons_of_mem e hfes) hpf e List.mem_cons_self (Bool.eq_false_iff.mpr hp) k hkf
      have hc := hcx k
      rw [List.count_eq_zero_of_not_mem hnew, held_eq_one.mpr hkx] at hc
      have hle := held_le_one u k
      exact held_eq_one.mp (by omega)

def Sub (u v : Store K V) : Prop := ∀ k x, u.lookup k = some x → v.lookup k = some x

theorem addAll_sub {os : List (K × V)} {u u' : Store K V} (h : addAll os u = some u') : Sub u u' := by
  intro k x hk
  have hnone : lastValue k os = none := by
    unfold lastValue
    rw [List.filter_eq_nil_iff.mpr, List.getLast?_nil, Option.map_none]
    intro p hp hpk
    have hkey : p.1 = k := by simpa using hpk
    exact (addAll_nodup h).2 k (List.mem_map.mpr ⟨p, hp, hkey⟩) (Finmap.mem_of_lookup_eq_some hk)
  rw [addAll_lookup h k, hnone, Option.none_or, hk]

theorem apply_sub {e : Entry I K V} {u v u' v' : Store K V} (hs : Sub u v) (hu : apply e u = some u')
    (hv : apply e v = some v') : Sub u' v' := by
  obtain ⟨x, hx, hux⟩ := apply_eq_some.mp hu
  obtain ⟨y, hy, hvy⟩ := apply_eq_some.mp hv
  intro k a ha
  rw [addAll_lookup hux k, spendAll_lookup hx k] at ha
  rw [addAll_lookup hvy k, spendAll_lookup hy k]
  cases hl : lastValue k e.outputs with
  | some b => rw [hl] at ha; exact ha
  | none =>
    rw [hl] at ha
    by_cases hk : k ∈ e.inputs
    · simp [hk] at ha
    · simp only [hk, ite_false, Option.none_or] at ha ⊢
      exact hs k a ha

theorem applyAll_sub : ∀ {es : List (Entry I K V)} {u v u' v' : Store K V}, Sub u v → applyAll es u = some u' →
    applyAll es v = some v' → Sub u' v'
  | [], _, _, _, _, hs, hu, hv => by
    simp only [applyAll, Option.some.injEq] at hu hv
    exact hu ▸ hv ▸ hs
  | e :: es, _, _, _, _, hs, hu, hv => by
    obtain ⟨x, hx, hu⟩ := applyAll_cons_some.mp hu
    obtain ⟨y, hy, hv⟩ := applyAll_cons_some.mp hv
    exact applyAll_sub (apply_sub hs hx hy) hu hv

/-! ## Orders

A set of entries given as a list can apply in several orders. When the created
keys are all new, any entry whose inputs are present may go first.
-/

def Applicable (es : List (Entry I K V)) (u : Store K V) : Prop := ∃ order, order.Perm es ∧ ∃ w, applyAll order u = some w

omit [DecidableEq K] in
theorem spent_perm {es fs : List (Entry I K V)} (h : es.Perm fs) : (spent es).Perm (spent fs) :=
  h.flatMap_right Entry.inputs

theorem Applicable.perm {es fs : List (Entry I K V)} {u : Store K V} (h : Applicable es u) (hp : es.Perm fs) :
    Applicable fs u := by
  obtain ⟨order, ho, w, hw⟩ := h
  exact ⟨order, ho.trans hp, w, hw⟩

theorem applicable_of_applyAll {es : List (Entry I K V)} {u w : Store K V} (h : applyAll es u = some w) :
    Applicable es u :=
  ⟨es, .refl es, w, h⟩

theorem Applicable.exists_ready {es : List (Entry I K V)} {u : Store K V} (h : Applicable es u) (hne : es ≠ []) :
    ∃ e ∈ es, ∀ k ∈ e.inputs, k ∈ u := by
  obtain ⟨order, ho, w, hw⟩ := h
  cases order with
  | nil => exact absurd ho.symm.eq_nil hne
  | cons e order =>
    obtain ⟨x, hx, -⟩ := applyAll_cons_some.mp hw
    obtain ⟨y, hy, -⟩ := apply_eq_some.mp hx
    exact ⟨e, ho.subset (by simp), (mem_of_spendAll hy).2⟩

theorem Applicable.transfer {es : List (Entry I K V)} {u u' : Store K V} (h : Applicable es u)
    (hin : ∀ k ∈ spent es, k ∈ u → k ∈ u') (hf : Fresh es u') : Applicable es u' := by
  obtain ⟨order, ho, w, hw⟩ := h
  have hsp : ∀ k ∈ spent order, k ∈ u → k ∈ u' := fun k hk =>
    hin k ((ho.flatMap_right Entry.inputs).mem_iff.mp hk)
  obtain ⟨w', hw'⟩ := applyAll_transfer hw hsp (hf.perm ho.symm)
  exact ⟨order, ho, w', hw'⟩

theorem applyAll_middle {l r : List (Entry I K V)} {e : Entry I K V} {u w : Store K V}
    (h : applyAll (l ++ e :: r) u = some w) (hf : Fresh (l ++ e :: r) u) (hready : ∀ k ∈ e.inputs, k ∈ u) :
    ∃ u', apply e u = some u' ∧ Fresh (l ++ r) u' ∧ ∃ w', applyAll (l ++ r) u' = some w' := by
  obtain ⟨x, hx, hrest⟩ := applyAll_append_some.mp h
  obtain ⟨y, hy, hr⟩ := applyAll_cons_some.mp hrest
  obtain ⟨z, hz, -⟩ := apply_eq_some.mp hy
  obtain ⟨hnd, hmem⟩ := mem_of_spendAll hz
  obtain ⟨u', hstep, hf'⟩ := (hf.perm List.perm_middle).apply hnd hready
  have hce : ∀ k, e.keys.count k + held u k = e.inputs.count k + held u' k := apply_count hstep
  have hcl : ∀ k, ((created l).map Prod.fst).count k + held u k = (spent l).count k + held x k := applyAll_count hx
  -- `l` leaves the inputs of `e` alone: what it spends it would have to create again
  have hkeep : ∀ k ∈ spent l, k ∈ u → k ∈ u' := by
    intro k hk hku
    by_cases hke : k ∈ e.inputs
    · have h₁ := hcl k
      rw [held_eq_one.mpr hku, held_eq_one.mpr (hmem k hke)] at h₁
      have h₂ := List.count_pos_iff.mpr hk
      exact absurd hku (hf.left.absent k (List.count_pos_iff.mp (by omega)))
    · have h₁ := hce k
      rw [held_eq_one.mpr hku, List.count_eq_zero_of_not_mem hke] at h₁
      have := held_le_one u' k
      exact held_eq_one.mp (by omega)
  obtain ⟨x', hx'⟩ := applyAll_transfer hx hkeep hf'.left
  have hcl' : ∀ k, ((created l).map Prod.fst).count k + held u' k = (spent l).count k + held x' k := applyAll_count hx'
  have hce' : ∀ k, e.keys.count k + held x k = e.inputs.count k + held y k := apply_count hy
  -- both orders lead to the same keys
  have hsame : ∀ k, held y k = held x' k := by
    intro k
    have h₁ := hcl k
    have h₂ := hcl' k
    have h₃ := hce k
    have h₄ := hce' k
    omega
  have hkeep : ∀ k ∈ spent r, k ∈ y → k ∈ x' := fun k _ hky => held_eq_one.mp (hsame k ▸ held_eq_one.mpr hky)
  obtain ⟨w', hw'⟩ := applyAll_transfer hr hkeep (hf'.drop hx')
  exact ⟨u', hstep, hf', w', applyAll_append_some.mpr ⟨x', hx', hw'⟩⟩

theorem Applicable.take {e : Entry I K V} {es : List (Entry I K V)} {u : Store K V} (h : Applicable (e :: es) u)
    (hf : Fresh (e :: es) u) (hready : ∀ k ∈ e.inputs, k ∈ u) :
    ∃ u', apply e u = some u' ∧ Applicable es u' ∧ Fresh es u' := by
  obtain ⟨order, ho, w, hw⟩ := h
  obtain ⟨l, r, rfl⟩ := List.append_of_mem (ho.symm.subset (List.mem_cons_self (a := e)))
  obtain ⟨u', hu', hf', w', hw'⟩ := applyAll_middle hw (hf.perm ho.symm) hready
  have hrest : (l ++ r).Perm es := (List.perm_cons e).mp (List.perm_middle.symm.trans ho)
  exact ⟨u', hu', ⟨l ++ r, hrest, w', hw'⟩, hf'.perm hrest⟩

/-- Entries that spend different keys, all of them there, apply in any order. -/
theorem applyAll_isSome : ∀ {es : List (Entry I K V)} {u : Store K V}, (spent es).Nodup → (∀ k ∈ spent es, k ∈ u) →
    Fresh es u → ∃ w, applyAll es u = some w
  | [], u, _, _, _ => ⟨u, rfl⟩
  | e :: es, u, hn, hin, hf => by
    rw [spent_cons, List.nodup_append] at hn
    obtain ⟨hne, hns, hdisjoint⟩ := hn
    obtain ⟨u', hstep, hf'⟩ := hf.apply hne fun k hk => hin k (by rw [spent_cons]; exact List.mem_append_left _ hk)
    have hrest : ∀ k ∈ spent es, k ∈ u' := by
      intro k hk
      have hc := apply_count hstep k
      have hke : e.inputs.count k = 0 := List.count_eq_zero_of_not_mem fun hke => hdisjoint k hke k hk rfl
      have hku : k ∈ u := hin k (by rw [spent_cons]; exact List.mem_append_right _ hk)
      have hle := held_le_one u' k
      rw [held_eq_one.mpr hku] at hc
      exact held_eq_one.mp (by omega)
    obtain ⟨w, hw⟩ := applyAll_isSome hns hrest hf'
    exact ⟨w, applyAll_cons_some.mpr ⟨u', hstep, hw⟩⟩

/-! ## Updates without a check

An order is sound when each entry finds its inputs in what the entries before it
leave, whatever else they overwrite. With new keys only, such an order applies.
-/

def update (e : Entry I K V) (u : Store K V) : Store K V :=
  e.outputs.foldl (fun u o => u.insert o.1 o.2) (e.inputs.foldl (fun u k => u.erase k) u)

def InOrder : List (Entry I K V) → Store K V → Prop
  | [], _ => True
  | e :: es, u => (∀ k ∈ e.inputs, k ∈ u) ∧ InOrder es (update e u)

theorem spendAll_eq_foldl {ks : List K} : ∀ {u u' : Store K V}, spendAll ks u = some u' →
    u' = ks.foldl (fun u k => u.erase k) u := by
  induction ks with
  | nil =>
    intro u u' h
    exact (Option.some.inj h).symm
  | cons k ks ih =>
    intro u u' h
    by_cases hk : k ∈ u
    · rw [spendAll, if_pos hk] at h
      exact ih h
    · rw [spendAll, if_neg hk] at h
      cases h

theorem addAll_eq_foldl {os : List (K × V)} : ∀ {u u' : Store K V}, addAll os u = some u' →
    u' = os.foldl (fun u o => u.insert o.1 o.2) u := by
  induction os with
  | nil =>
    intro u u' h
    exact (Option.some.inj h).symm
  | cons o os ih =>
    intro u u' h
    by_cases ho : o.1 ∈ u
    · rw [addAll, if_pos ho] at h
      cases h
    · rw [addAll, if_neg ho] at h
      exact ih h

theorem apply_eq_update {e : Entry I K V} {u u' : Store K V} (h : apply e u = some u') : u' = update e u := by
  obtain ⟨w, hw, hu'⟩ := apply_eq_some.mp h
  rw [addAll_eq_foldl hu', spendAll_eq_foldl hw]
  rfl

theorem inOrder_of_applyAll {es : List (Entry I K V)} : ∀ {u w : Store K V}, applyAll es u = some w → InOrder es u := by
  induction es with
  | nil =>
    intro u w h
    exact True.intro
  | cons e es ih =>
    intro u w h
    obtain ⟨u', hu', hw⟩ := applyAll_cons_some.mp h
    obtain ⟨x, hx, -⟩ := apply_eq_some.mp hu'
    refine ⟨(mem_of_spendAll hx).2, ?_⟩
    rw [← apply_eq_update hu']
    exact ih hw

theorem applyAll_of_inOrder {es : List (Entry I K V)} : ∀ {u : Store K V}, InOrder es u →
    (∀ e ∈ es, e.inputs.Nodup) → Fresh es u → ∃ w, applyAll es u = some w := by
  induction es with
  | nil =>
    intro u _ _ _
    exact ⟨u, rfl⟩
  | cons e es ih =>
    intro u h hn hf
    rw [List.forall_mem_cons] at hn
    obtain ⟨u', hu', hf'⟩ := hf.apply hn.1 h.1
    have hrest : InOrder es u' := by
      rw [apply_eq_update hu']
      exact h.2
    obtain ⟨w, hw⟩ := ih hrest hn.2 hf'
    exact ⟨w, applyAll_cons_some.mpr ⟨u', hu', hw⟩⟩

end Coins
