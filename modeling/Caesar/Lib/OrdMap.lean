import Mathlib.Data.List.Basic

/-!
# Ordered maps

A map whose entries are kept in the order of their keys. Two maps with the same
entries are equal, and inserting the entries of a map one after the other into
the empty map gives the map back.
-/

namespace OrdMap

section
variable {K V W : Type} [DecidableEq K]

def valueOf (k : K) : List (K × V) → Option V
  | [] => none
  | p :: rest => if p.1 = k then some p.2 else valueOf k rest

theorem mem_of_valueOf {k : K} {v : V} : ∀ {es : List (K × V)}, valueOf k es = some v → (k, v) ∈ es
  | p :: rest, h => by
    rw [valueOf] at h
    by_cases hk : p.1 = k
    · rw [if_pos hk, Option.some.injEq] at h
      subst hk h
      exact List.mem_cons_self
    · rw [if_neg hk] at h
      exact List.mem_cons_of_mem _ (mem_of_valueOf h)

theorem valueOf_erase {k j : K} : ∀ {es : List (K × V)},
    valueOf j (es.filter fun p => p.1 ≠ k) = if k = j then none else valueOf j es
  | [] => (ite_self none).symm
  | p :: rest => by
    by_cases hp : p.1 = k
    · rw [List.filter_cons_of_neg (by simp [hp]), valueOf_erase, valueOf, hp]
      by_cases hj : k = j
      · rw [if_pos hj, if_pos hj]
      · rw [if_neg hj, if_neg hj, if_neg hj]
    · rw [List.filter_cons_of_pos (by simp [hp]), valueOf, valueOf_erase, valueOf]
      by_cases hj : k = j
      · rw [if_pos hj, if_pos hj, if_neg (fun he : p.1 = j => hp (he.trans hj.symm))]
      · rw [if_neg hj, if_neg hj]

variable [LT K] [DecidableLT K]

def insertEntry (k : K) (v : V) : List (K × V) → List (K × V)
  | [] => [(k, v)]
  | p :: rest => if k < p.1 then (k, v) :: p :: rest else if k = p.1 then (k, v) :: rest else p :: insertEntry k v rest

theorem mem_insertEntry {k : K} {v : V} {q : K × V} : ∀ {es : List (K × V)}, q ∈ insertEntry k v es → q = (k, v) ∨ q ∈ es
  | [], h => Or.inl (List.mem_singleton.mp h)
  | p :: rest, h => by
    rw [insertEntry] at h
    split at h
    · exact List.mem_cons.mp h
    · split at h
      · rcases List.mem_cons.mp h with h | h
        · exact Or.inl h
        · exact Or.inr (List.mem_cons_of_mem _ h)
      · rcases List.mem_cons.mp h with rfl | h
        · exact Or.inr List.mem_cons_self
        · rcases mem_insertEntry h with h | h
          · exact Or.inl h
          · exact Or.inr (List.mem_cons_of_mem _ h)

theorem valueOf_insertEntry {k j : K} {v : V} : ∀ {es : List (K × V)},
    valueOf j (insertEntry k v es) = if k = j then some v else valueOf j es
  | [] => rfl
  | p :: rest => by
    rw [insertEntry]
    split
    · rfl
    · split
      · rename_i heq
        rw [valueOf, valueOf, ← heq]
        by_cases hj : k = j
        · rw [if_pos hj, if_pos hj]
        · rw [if_neg hj, if_neg hj, if_neg hj]
      · rename_i hne
        rw [valueOf, valueOf_insertEntry, valueOf]
        by_cases hj : p.1 = j
        · rw [if_pos hj, if_pos hj, if_neg (fun he : k = j => hne (he.trans hj.symm))]
        · rw [if_neg hj, if_neg hj]

theorem length_insertEntry {k : K} {v : V} : ∀ {es : List (K × V)}, valueOf k es = none →
    (insertEntry k v es).length = es.length + 1
  | [], _ => rfl
  | p :: rest, h => by
    rw [valueOf] at h
    by_cases hk : p.1 = k
    · rw [if_pos hk] at h
      cases h
    · rw [if_neg hk] at h
      rw [insertEntry]
      split
      · rfl
      · rw [if_neg (Ne.symm hk), List.length_cons, length_insertEntry h, List.length_cons]

/-- An entry whose key is above all others goes to the end. -/
theorem insertEntry_last {k : K} {v : V} : ∀ {es : List (K × V)}, (∀ p ∈ es, ¬ k < p.1 ∧ k ≠ p.1) →
    insertEntry k v es = es ++ [(k, v)]
  | [], _ => rfl
  | p :: rest, h => by
    rw [List.forall_mem_cons] at h
    rw [insertEntry, if_neg h.1.1, if_neg h.1.2, insertEntry_last h.2, List.cons_append]

variable [LE K] [Std.IsLinearOrder K] [Std.LawfulOrderLT K]

theorem sorted_insertEntry {k : K} {v : V} : ∀ {es : List (K × V)}, es.Pairwise (fun a b => a.1 < b.1) →
    (insertEntry k v es).Pairwise fun a b => a.1 < b.1
  | [], _ => List.pairwise_singleton ..
  | p :: rest, h => by
    obtain ⟨hp, hrest⟩ := List.pairwise_cons.mp h
    rw [insertEntry]
    split
    · rename_i hlt
      refine List.pairwise_cons.mpr ⟨fun q hq => ?_, h⟩
      rcases List.mem_cons.mp hq with rfl | hq
      · exact hlt
      · exact Std.lt_trans hlt (hp q hq)
    · rename_i hge
      split
      · rename_i heq
        exact List.pairwise_cons.mpr ⟨fun q hq => heq ▸ hp q hq, hrest⟩
      · rename_i hne
        have hlt : p.1 < k := Std.lt_of_le_of_ne (Std.not_lt.mp hge) (Ne.symm hne)
        refine List.pairwise_cons.mpr ⟨fun q hq => ?_, sorted_insertEntry hrest⟩
        rcases mem_insertEntry hq with rfl | hq
        · exact hlt
        · exact hp q hq

omit [DecidableLT K] [Std.IsLinearOrder K] in
theorem mem_iff_valueOf {k : K} {v : V} : ∀ {es : List (K × V)}, es.Pairwise (fun a b => a.1 < b.1) →
    ((k, v) ∈ es ↔ valueOf k es = some v)
  | [], _ => ⟨fun h => (List.not_mem_nil h).elim, mem_of_valueOf⟩
  | p :: rest, h => by
    obtain ⟨hp, hrest⟩ := List.pairwise_cons.mp h
    refine ⟨fun hmem => ?_, mem_of_valueOf⟩
    rw [valueOf]
    rcases List.mem_cons.mp hmem with rfl | hmem
    · exact if_pos rfl
    · have hne : p.1 ≠ k := fun he => Std.lt_irrefl (he ▸ hp (k, v) hmem : k < k)
      rw [if_neg hne]
      exact (mem_iff_valueOf hrest).mp hmem

theorem length_insertEntry_of_some {k : K} {v w : V} : ∀ {es : List (K × V)}, es.Pairwise (fun a b => a.1 < b.1) →
    valueOf k es = some w → (insertEntry k v es).length = es.length
  | [], _, h => by cases h
  | p :: rest, hsorted, h => by
    obtain ⟨hp, hrest⟩ := List.pairwise_cons.mp hsorted
    rw [valueOf] at h
    rw [insertEntry]
    by_cases hk : p.1 = k
    · rw [if_neg (by rw [hk]; exact Std.lt_irrefl), if_pos hk.symm, List.length_cons, List.length_cons]
    · rw [if_neg hk] at h
      have hlt : p.1 < k := hp _ (mem_of_valueOf h)
      rw [if_neg (fun hgt => Std.lt_irrefl (Std.lt_trans hlt hgt)), if_neg (Ne.symm hk), List.length_cons,
        length_insertEntry_of_some hrest h, List.length_cons]

/-- A sorted list grows by its own entries, one after the other. -/
theorem foldl_insertEntry : ∀ {es done : List (K × V)}, (done ++ es).Pairwise (fun a b => a.1 < b.1) →
    es.foldl (fun m p => insertEntry p.1 p.2 m) done = done ++ es
  | [], done, _ => (List.append_nil done).symm
  | p :: rest, done, h => by
    have hlast : insertEntry p.1 p.2 done = done ++ [p] := by
      refine insertEntry_last fun q hq => ?_
      have hlt : q.1 < p.1 := (List.pairwise_append.mp h).2.2 q hq p List.mem_cons_self
      exact ⟨fun hgt => Std.lt_irrefl (Std.lt_trans hlt hgt), fun he => Std.lt_irrefl (he ▸ hlt : q.1 < q.1)⟩
    rw [List.foldl_cons, hlast, foldl_insertEntry (by rwa [List.append_assoc, List.singleton_append]), List.append_assoc,
      List.singleton_append]

end

end OrdMap

/-- Entries in the order of their keys. -/
structure OrdMap (K V : Type) [LT K] where
  entries : List (K × V)
  sorted : entries.Pairwise fun a b => a.1 < b.1

namespace OrdMap

section
variable {K V : Type} [LT K]

@[ext]
theorem ext : ∀ {m n : OrdMap K V}, m.entries = n.entries → m = n
  | ⟨_, _⟩, ⟨_, _⟩, rfl => rfl

instance [DecidableEq K] [DecidableEq V] : DecidableEq (OrdMap K V) := fun m n =>
  decidable_of_iff (m.entries = n.entries) ⟨ext, fun h => h ▸ rfl⟩

def empty : OrdMap K V := ⟨[], .nil⟩

variable {W : Type}

def mapWithKey (f : K → V → W) (m : OrdMap K V) : OrdMap K W :=
  ⟨m.entries.map fun p => (p.1, f p.1 p.2), List.pairwise_map.mpr m.sorted⟩

theorem mapWithKey_eq_self {m : OrdMap K V} {f : K → V → V} : m.mapWithKey f = m ↔ ∀ p ∈ m.entries, f p.1 p.2 = p.2 := by
  refine ⟨fun h p hp => ?_, fun h => ext ?_⟩
  · have hentries : m.entries.map (fun p => (p.1, f p.1 p.2)) = m.entries.map id := by
      rw [List.map_id]
      exact congrArg entries h
    exact congrArg Prod.snd (List.map_inj_left.mp hentries p hp)
  · calc m.entries.map (fun p => (p.1, f p.1 p.2)) = m.entries.map id :=
          List.map_inj_left.mpr fun p hp => Prod.ext rfl (h p hp)
      _ = m.entries := List.map_id _

def filter (p : K → V → Bool) (m : OrdMap K V) : OrdMap K V := ⟨m.entries.filter fun e => p e.1 e.2, m.sorted.filter _⟩

variable [DecidableEq K]

def find? (m : OrdMap K V) (k : K) : Option V := valueOf k m.entries

def contains (m : OrdMap K V) (k : K) : Bool := (m.find? k).isSome

def erase (m : OrdMap K V) (k : K) : OrdMap K V := ⟨m.entries.filter fun p => p.1 ≠ k, m.sorted.filter _⟩

@[simp]
theorem find?_erase (m : OrdMap K V) (k j : K) : (m.erase k).find? j = if k = j then none else m.find? j := valueOf_erase

variable [DecidableLT K] [LE K] [Std.IsLinearOrder K] [Std.LawfulOrderLT K]

def insert (m : OrdMap K V) (k : K) (v : V) : OrdMap K V := ⟨insertEntry k v m.entries, sorted_insertEntry m.sorted⟩

@[simp]
theorem find?_insert (m : OrdMap K V) (k j : K) (v : V) : (m.insert k v).find? j = if k = j then some v else m.find? j :=
  valueOf_insertEntry

omit [DecidableLT K] [Std.IsLinearOrder K] in
theorem mem_entries {m : OrdMap K V} {k : K} {v : V} : (k, v) ∈ m.entries ↔ m.find? k = some v := mem_iff_valueOf m.sorted

omit [DecidableLT K] [Std.IsLinearOrder K] in
@[simp]
theorem find?_filter (m : OrdMap K V) (p : K → V → Bool) (k : K) : (m.filter p).find? k = (m.find? k).filter (p k) := by
  apply Option.ext
  intro v
  rw [← mem_entries, Option.filter_eq_some_iff, ← mem_entries]
  exact List.mem_filter

theorem mem_insert {m : OrdMap K V} {k : K} {v : V} {q : K × V} (h : q ∈ (m.insert k v).entries) : q = (k, v) ∨ q ∈ m.entries :=
  mem_insertEntry h

theorem length_insert {m : OrdMap K V} {k : K} {v : V} (h : m.find? k = none) :
    (m.insert k v).entries.length = m.entries.length + 1 :=
  length_insertEntry h

theorem length_insert_of_some {m : OrdMap K V} {k : K} {v w : V} (h : m.find? k = some w) :
    (m.insert k v).entries.length = m.entries.length :=
  length_insertEntry_of_some m.sorted h

theorem entries_foldl : ∀ (es : List (K × V)) (m : OrdMap K V),
    (es.foldl (fun m p => m.insert p.1 p.2) m).entries = es.foldl (fun l p => insertEntry p.1 p.2 l) m.entries
  | [], _ => rfl
  | p :: rest, m => entries_foldl rest (m.insert p.1 p.2)

theorem foldl_insert (m : OrdMap K V) : m.entries.foldl (fun n p => n.insert p.1 p.2) empty = m :=
  ext ((entries_foldl m.entries empty).trans (foldl_insertEntry m.sorted))

end

end OrdMap
