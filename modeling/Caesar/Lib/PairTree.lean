import Mathlib.Data.List.Basic
import Mathlib.Logic.Function.Iterate

/-!
# Pairing trees with a duplicated last node

Every level pairs its neighbours and pairs an odd last node with itself, so a
root does not determine its leaves: a list and the list with its tail repeated
may share it. `climb_inj` shows that this is the only ambiguity. Lists without
a repeated neighbouring segment (`NoSquare`) are determined by their root, when
the pairing is injective on the pairs it hashes and no leaf is a pair.
-/

namespace PairTree

variable {α : Type}

/-! ## Lists without repeated neighbouring segments -/

def NoSquare (l : List α) : Prop := ∀ a s b, l = a ++ (s ++ (s ++ b)) → s = []

theorem NoSquare.not_adjacent {l : List α} (hl : NoSquare l) (a : List α) (x : α) (b : List α) :
    l ≠ a ++ x :: x :: b := by
  intro h
  have := hl a [x] b (by simpa using h)
  cases this

theorem NoSquare.of_map {β : Type} {l : List α} (f : α → β) (hl : NoSquare (l.map f)) : NoSquare l := by
  intro a s b h
  have := hl (a.map f) (s.map f) (b.map f) (by rw [h]; simp)
  simpa using this

/-! ## One level -/

def pairUp : List α → List (α × α)
  | [] => []
  | [a] => [(a, a)]
  | a :: b :: l => (a, b) :: pairUp l

def flat : List (α × α) → List α
  | [] => []
  | p :: l => p.1 :: p.2 :: flat l

theorem flat_append : ∀ (l m : List (α × α)), flat (l ++ m) = flat l ++ flat m
  | [], _ => rfl
  | p :: l, m => by simp [flat, flat_append l m]

theorem flat_eq_nil {l : List (α × α)} (h : flat l = []) : l = [] := by
  cases l with
  | nil => rfl
  | cons p l => simp [flat] at h

theorem mem_pairUp : ∀ {l : List α} {p : α × α}, p ∈ pairUp l → p.1 ∈ l ∧ p.2 ∈ l
  | [], _, h => by cases h
  | [a], p, h => by simp [pairUp] at h; subst h; simp
  | a :: b :: l, p, h => by
    rcases List.mem_cons.mp h with rfl | h
    · simp
    · have := mem_pairUp h
      exact ⟨by simp [this.1], by simp [this.2]⟩

theorem pairUp_length : ∀ l : List α, (pairUp l).length = (l.length + 1) / 2
  | [] => by simp [pairUp]
  | [_] => by simp [pairUp]
  | _ :: _ :: l => by simp only [pairUp, List.length_cons, pairUp_length l]; omega

/-- Flattening the pairs gives the level back, with its last node repeated when its length is odd. -/
theorem flat_pairUp : ∀ l : List α, flat (pairUp l) = l ∨
    ∃ a x, l = a ++ [x] ∧ flat (pairUp l) = a ++ [x, x] ∧ ∃ m, pairUp l = m ++ [(x, x)] ∧ flat m = a
  | [] => Or.inl rfl
  | [a] => Or.inr ⟨[], a, rfl, rfl, [], rfl, rfl⟩
  | a :: b :: l => by
    rcases flat_pairUp l with h | ⟨c, x, hl, hf, m, hm, hfm⟩
    · exact Or.inl (by simp [pairUp, flat, h])
    · refine Or.inr ⟨a :: b :: c, x, by simp [hl], by simp [pairUp, flat, hf], (a, b) :: m, by simp [pairUp, hm], ?_⟩
      simp [flat, hfm]

theorem eq_of_pairUp_eq {l m : List α} (hl : NoSquare l) (hm : NoSquare m) (h : pairUp l = pairUp m) : l = m := by
  rcases flat_pairUp l with h₁ | ⟨a, x, hla, hfa, _⟩ <;> rcases flat_pairUp m with h₂ | ⟨b, y, hmb, hfb, _⟩
  · rw [← h₁, h, h₂]
  · have : l = b ++ y :: y :: [] := by rw [← h₁, h, hfb]
    exact absurd this (hl.not_adjacent b y [])
  · have : m = a ++ x :: x :: [] := by rw [← h₂, ← h, hfa]
    exact absurd this (hm.not_adjacent a x [])
  · have he : a ++ [x, x] = b ++ [y, y] := by rw [← hfa, h, hfb]
    have hx : a ++ [x] ++ [x] = b ++ [y] ++ [y] := by simpa using he
    have := (List.append_inj' hx rfl).1
    rw [hla, hmb, this]

theorem noSquare_pairUp {l : List α} (hl : NoSquare l) : NoSquare (pairUp l) := by
  intro a s b h
  by_contra hs
  have hf : flat (pairUp l) = flat a ++ (flat s ++ (flat s ++ flat b)) := by rw [h]; simp [flat_append]
  rcases flat_pairUp l with h₁ | ⟨c, x, hlc, -, m, hm, hfm⟩
  · rw [h₁] at hf
    exact hs (flat_eq_nil (hl _ _ _ hf))
  · rcases List.eq_nil_or_concat b with rfl | ⟨b', p, rfl⟩
    · -- the padded pair ends the second copy, so the first copy holds the node twice
      rcases List.eq_nil_or_concat s with rfl | ⟨s', p, rfl⟩
      · exact hs rfl
      · have he : m ++ [(x, x)] = (a ++ (s' ++ (p :: s'))) ++ [p] := by rw [← hm, h]; simp
        obtain ⟨hm', hp⟩ := List.append_inj' he rfl
        simp only [List.cons.injEq, and_true] at hp
        subst hp
        have : l = (flat a ++ flat s') ++ x :: x :: (flat s' ++ [x]) := by
          rw [hlc, ← hfm, hm']; simp [flat_append, flat]
        exact hl.not_adjacent _ _ _ this
    · have he : m ++ [(x, x)] = (a ++ (s ++ (s ++ b'))) ++ [p] := by rw [← hm, h]; simp
      obtain ⟨hm', -⟩ := List.append_inj' he rfl
      have : l = flat a ++ (flat s ++ (flat s ++ (flat b' ++ [x]))) := by
        rw [hlc, ← hfm, hm']; simp [flat_append]
      exact hs (flat_eq_nil (hl _ _ _ this))

/-! ## Climbing to the root -/

section
variable (h : α → α → α)

def level (l : List α) : List α := (pairUp l).map fun p => h p.1 p.2

/-- Pair up until a single node is left; `n` bounds the number of levels. -/
def climb : Nat → List α → List α
  | 0, l => l
  | n + 1, l => if 1 < l.length then climb n (level h l) else l

def depth : Nat → List α → Nat
  | 0, _ => 0
  | n + 1, l => if 1 < l.length then depth n (level h l) + 1 else 0

/-- The pairs hashed on the way to the root. -/
def hashed (l : List α) : List (α × α) :=
  (List.range (depth h l.length l)).flatMap fun k => pairUp ((level h)^[k] l)

theorem level_length (l : List α) : (level h l).length = (l.length + 1) / 2 := by
  simp [level, pairUp_length]

theorem climb_eq : ∀ (n : Nat) (l : List α), climb h n l = (level h)^[depth h n l] l
  | 0, _ => rfl
  | n + 1, l => by
    by_cases hl : 1 < l.length
    · simp only [climb, depth, hl, ite_true, climb_eq n, Function.iterate_succ_apply]
    · simp [climb, depth, hl]

theorem climb_length : ∀ (n : Nat) (l : List α), l ≠ [] → l.length ≤ n + 1 → (climb h n l).length = 1
  | 0, l, hne, hn => by
    have := List.length_pos_of_ne_nil hne
    simp only [climb]; omega
  | n + 1, l, hne, hn => by
    have hp := List.length_pos_of_ne_nil hne
    by_cases hl : 1 < l.length
    · simp only [climb, hl, ite_true]
      have hlen := level_length h l
      refine climb_length n _ ?_ (by omega)
      intro he
      simp [he] at hlen; omega
    · simp only [climb, hl, ite_false]; omega

theorem mem_hashed {l : List α} {k : Nat} (hk : k < depth h l.length l) {p : α × α}
    (hp : p ∈ pairUp ((level h)^[k] l)) : p ∈ hashed h l :=
  List.mem_flatMap.mpr ⟨k, List.mem_range.mpr hk, hp⟩

theorem mem_level_succ {l : List α} {k : Nat} {x : α} (hx : x ∈ (level h)^[k + 1] l) :
    ∃ p ∈ pairUp ((level h)^[k] l), h p.1 p.2 = x := by
  rw [Function.iterate_succ_apply'] at hx
  exact List.mem_map.mp hx

end

section
variable {h : α → α → α} {l m : List α}
variable (hinj : ∀ p ∈ hashed h l ++ hashed h m, ∀ q ∈ hashed h l ++ hashed h m, h p.1 p.2 = h q.1 q.2 → p = q)
variable (hsep : ∀ x ∈ l ++ m, ∀ p ∈ hashed h l ++ hashed h m, x ≠ h p.1 p.2)

include hinj hsep in
theorem levels_disjoint : ∀ (k j : Nat) (x : α), k ≤ depth h l.length l → k + j + 1 ≤ depth h m.length m →
    x ∈ (level h)^[k] l → x ∉ (level h)^[k + j + 1] m
  | 0, j, x, _, hj, hx => by
    intro hxm
    obtain ⟨p, hp, hpx⟩ := mem_level_succ h hxm
    exact hsep x (List.mem_append_left _ hx) p (List.mem_append_right _ (mem_hashed h (by omega) hp)) hpx.symm
  | k + 1, j, x, hk, hj, hx => by
    intro hxm
    obtain ⟨p, hp, hpx⟩ := mem_level_succ h hx
    obtain ⟨q, hq, hqx⟩ := mem_level_succ h hxm
    have he : p = q := hinj p (List.mem_append_left _ (mem_hashed h (by omega) hp))
      q (List.mem_append_right _ (mem_hashed h (by omega) hq)) (by rw [hpx, hqx])
    have hq' : q.1 ∈ (level h)^[k + j + 1] m := by
      have := (mem_pairUp hq).1
      rwa [show k + 1 + j = k + j + 1 by omega] at this
    exact levels_disjoint k j p.1 (by omega) (by omega) (mem_pairUp hp).1 (he ▸ hq')

theorem map_pairs_inj {P : List (α × α)}
    (hP : ∀ p ∈ P, ∀ q ∈ P, h p.1 p.2 = h q.1 q.2 → p = q) :
    ∀ {a b : List (α × α)}, (∀ p ∈ a, p ∈ P) → (∀ p ∈ b, p ∈ P) →
      (a.map fun p => h p.1 p.2) = (b.map fun p => h p.1 p.2) → a = b
  | [], [], _, _, _ => rfl
  | [], _ :: _, _, _, he => by simp at he
  | _ :: _, [], _, _, he => by simp at he
  | p :: a, q :: b, ha, hb, he => by
    simp only [List.map_cons, List.cons.injEq] at he
    rw [hP p (ha p (by simp)) q (hb q (by simp)) he.1,
      map_pairs_inj hP (fun r hr => ha r (by simp [hr])) (fun r hr => hb r (by simp [hr])) he.2]

theorem noSquare_level {P : List (α × α)} (hP : ∀ p ∈ P, ∀ q ∈ P, h p.1 p.2 = h q.1 q.2 → p = q)
    (hl : NoSquare l) (hlP : ∀ p ∈ pairUp l, p ∈ P) : NoSquare (level h l) := by
  intro a s b he
  unfold level at he
  obtain ⟨a', r, hr, ha', he⟩ := List.map_eq_append_iff.mp he
  obtain ⟨s', r', hr', hs', he⟩ := List.map_eq_append_iff.mp he
  obtain ⟨s'', b', hb', hs'', hb''⟩ := List.map_eq_append_iff.mp he
  subst hb' hr'
  have hsub : ∀ p ∈ s' ++ (s'' ++ b'), p ∈ P := fun p hp => hlP p (by rw [hr]; exact List.mem_append_right _ hp)
  have hss : s' = s'' := map_pairs_inj hP (fun p hp => hsub p (by simp [hp])) (fun p hp => hsub p (by simp [hp]))
    (by rw [hs', hs''])
  subst hss
  have := noSquare_pairUp hl a' s' b' hr
  rw [← hs', this]; rfl

theorem noSquare_iterate {P : List (α × α)} (hP : ∀ p ∈ P, ∀ q ∈ P, h p.1 p.2 = h q.1 q.2 → p = q)
    (hl : NoSquare l) : ∀ k, (∀ j < k, ∀ p ∈ pairUp ((level h)^[j] l), p ∈ P) → NoSquare ((level h)^[k] l)
  | 0, _ => hl
  | k + 1, hk => by
    rw [Function.iterate_succ_apply']
    exact noSquare_level hP (noSquare_iterate hP hl k fun j hj => hk j (by omega)) (hk k (by omega))

theorem eq_of_iterate_eq {P : List (α × α)} (hP : ∀ p ∈ P, ∀ q ∈ P, h p.1 p.2 = h q.1 q.2 → p = q)
    (hl : NoSquare l) (hm : NoSquare m) : ∀ k, (∀ j < k, ∀ p ∈ pairUp ((level h)^[j] l), p ∈ P) →
      (∀ j < k, ∀ p ∈ pairUp ((level h)^[j] m), p ∈ P) → (level h)^[k] l = (level h)^[k] m → l = m
  | 0, _, _, he => he
  | k + 1, hlk, hmk, he => by
    rw [Function.iterate_succ_apply', Function.iterate_succ_apply'] at he
    have hpairs := map_pairs_inj hP (hlk k (by omega)) (hmk k (by omega)) he
    have hl' := noSquare_iterate hP hl k fun j hj => hlk j (by omega)
    have hm' := noSquare_iterate hP hm k fun j hj => hmk j (by omega)
    exact eq_of_iterate_eq hP hl hm k (fun j hj => hlk j (by omega)) (fun j hj => hmk j (by omega))
      (eq_of_pairUp_eq hl' hm' hpairs)

end

/-- The root determines leaves without repeated segments. -/
theorem climb_inj {h : α → α → α} {l m : List α} (hl : NoSquare l) (hm : NoSquare m) (hlne : l ≠ [])
    (hinj : ∀ p ∈ hashed h l ++ hashed h m, ∀ q ∈ hashed h l ++ hashed h m, h p.1 p.2 = h q.1 q.2 → p = q)
    (hsep : ∀ x ∈ l ++ m, ∀ p ∈ hashed h l ++ hashed h m, x ≠ h p.1 p.2)
    (hroot : climb h l.length l = climb h m.length m) : l = m := by
  obtain ⟨r, hr⟩ := List.length_eq_one_iff.mp (climb_length h l.length l hlne (by omega))
  have hl₁ : (level h)^[depth h l.length l] l = [r] := by rw [← climb_eq, hr]
  have hm₁ : (level h)^[depth h m.length m] m = [r] := by rw [← climb_eq, ← hroot, hr]
  have hinj' : ∀ p ∈ hashed h m ++ hashed h l, ∀ q ∈ hashed h m ++ hashed h l, h p.1 p.2 = h q.1 q.2 → p = q :=
    fun p hp q hq => hinj p (by simpa [or_comm] using hp) q (by simpa [or_comm] using hq)
  have hsep' : ∀ x ∈ m ++ l, ∀ p ∈ hashed h m ++ hashed h l, x ≠ h p.1 p.2 :=
    fun x hx p hp => hsep x (by simpa [or_comm] using hx) p (by simpa [or_comm] using hp)
  -- trees of different depths would share a node between two levels
  have hd : depth h l.length l = depth h m.length m := by
    rcases Nat.lt_trichotomy (depth h l.length l) (depth h m.length m) with hlt | he | hlt
    · obtain ⟨j, hj⟩ := Nat.exists_eq_add_of_lt hlt
      refine absurd ?_ (levels_disjoint hinj hsep _ j r (Nat.le_refl _) (by omega) (by rw [hl₁]; simp))
      rw [← hj, hm₁]; simp
    · exact he
    · obtain ⟨j, hj⟩ := Nat.exists_eq_add_of_lt hlt
      refine absurd ?_ (levels_disjoint hinj' hsep' _ j r (Nat.le_refl _) (by omega) (by rw [hm₁]; simp))
      rw [← hj, hl₁]; simp
  refine eq_of_iterate_eq hinj hl hm (depth h l.length l) ?_ ?_ (by rw [hl₁, hd, hm₁])
  · intro j hj p hp
    exact List.mem_append_left _ (mem_hashed h hj hp)
  · intro j hj p hp
    exact List.mem_append_right _ (mem_hashed h (hd ▸ hj) hp)

end PairTree
