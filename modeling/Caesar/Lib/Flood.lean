import Mathlib.Data.Set.Basic
import Mathlib.Data.Fintype.BigOperators
import Mathlib.Logic.Relation

/-!
# Flooding over first-in-first-out links

Each party passes on what it takes, once, to the parties it is linked to; the one
it got an item from may be left out. A party takes an item only when it is ready
for it, which depends on what it has taken before. Only the links are in order,
and yet no item reaches a party that is not ready for it (`Causal`): whoever sends
it has sent what comes before on the same link. So once nothing is on its way,
linked parties have taken the same items.
-/

namespace Flood

/-- What is on its way from one party to another, the oldest first. -/
abbrev Wires (N A : Type) := N → N → List A

section
variable {N A B : Type} [DecidableEq N]

namespace Wires

def put (w : Wires N A) (src dst : N) (a : A) : Wires N A :=
  Function.update w src (Function.update (w src) dst (w src dst ++ [a]))

def receive (w : Wires N A) (src dst : N) : Wires N A :=
  Function.update w src (Function.update (w src) dst (w src dst).tail)

def send (w : Wires N A) (src : N) (targets : List N) (a : A) : Wires N A :=
  targets.foldl (fun w dst => w.put src dst a) w

def Quiet (w : Wires N A) : Prop := ∀ x y, w x y = []

/-- The items among what is on its way. -/
def items (f : A → Option B) (w : Wires N A) : Wires N B := fun x y => (w x y).filterMap f

theorem put_apply (w : Wires N A) (src dst x y : N) (a : A) :
    w.put src dst a x y = if x = src ∧ y = dst then w x y ++ [a] else w x y := by
  by_cases hx : x = src
  · subst hx
    by_cases hy : y = dst
    · subst hy
      simp [put]
    · simp [put, hy]
  · simp [put, hx]

theorem receive_apply (w : Wires N A) (src dst x y : N) :
    w.receive src dst x y = if x = src ∧ y = dst then (w x y).tail else w x y := by
  by_cases hx : x = src
  · subst hx
    by_cases hy : y = dst
    · subst hy
      simp [receive]
    · simp [receive, hy]
  · simp [receive, hx]

theorem send_apply (src : N) (a : A) : ∀ (targets : List N) (w : Wires N A) (x y : N),
    w.send src targets a x y = if x = src then w x y ++ List.replicate (targets.count y) a else w x y
  | [], w, x, y => by simp [send]
  | dst :: targets, w, x, y => by
    have ih := send_apply src a targets (w.put src dst a) x y
    simp only [send, List.foldl_cons] at ih ⊢
    rw [ih, put_apply]
    by_cases hx : x = src
    · by_cases hy : y = dst
      · simp [hx, hy, List.replicate_succ]
      · simp [hx, hy, List.count_cons_of_ne (Ne.symm hy)]
    · simp [hx]

theorem mem_send {w : Wires N A} {src x y : N} {targets : List N} {a b : A} :
    b ∈ w.send src targets a x y ↔ b ∈ w x y ∨ x = src ∧ y ∈ targets ∧ b = a := by
  rw [send_apply]
  by_cases hx : x = src
  · simp [hx, List.count_eq_zero]
  · simp [hx]

theorem mem_of_receive {w : Wires N A} {src dst x y : N} {a : A} (h : a ∈ w.receive src dst x y) : a ∈ w x y := by
  rw [receive_apply] at h
  split at h
  · exact List.mem_of_mem_tail h
  · exact h

/-! ## The items on their way -/

variable {f : A → Option B}

theorem items_send_some {a : A} {b : B} (hf : f a = some b) (w : Wires N A) (src : N) (targets : List N) :
    (w.send src targets a).items f = (w.items f).send src targets b := by
  funext x y
  simp only [items, send_apply]
  by_cases hx : x = src
  · simp [hx, hf]
  · simp [hx]

theorem items_send_none {a : A} (hf : f a = none) (w : Wires N A) (src : N) (targets : List N) :
    (w.send src targets a).items f = w.items f := by
  funext x y
  simp only [items, send_apply]
  by_cases hx : x = src
  · simp [hx, hf]
  · simp [hx]

theorem items_receive_some {w : Wires N A} {src dst : N} {a : A} {rest : List A} {b : B} (h : w src dst = a :: rest)
    (hf : f a = some b) : (w.receive src dst).items f = (w.items f).receive src dst := by
  funext x y
  simp only [items, receive_apply]
  by_cases hxy : x = src ∧ y = dst
  · simp [hxy, h, hf]
  · simp [hxy]

theorem items_receive_none {w : Wires N A} {src dst : N} {a : A} {rest : List A} (h : w src dst = a :: rest)
    (hf : f a = none) : (w.receive src dst).items f = w.items f := by
  funext x y
  simp only [items, receive_apply]
  by_cases hxy : x = src ∧ y = dst
  · simp [hxy, h, hf]
  · simp [hxy]

/-! ## How much is on its way -/

section
variable [Fintype N]

def load (w : Wires N A) : Nat := ∑ x, ∑ y, (w x y).length

end

end Wires

/-! ## Flooding -/

/-- What each party has taken, and what is on its way. -/
structure State (N A : Type) where
  known : N → Set A
  wires : Wires N A

def State.take (s : State N A) (n : N) (a : A) (targets : List N) : State N A :=
  ⟨Function.update s.known n (insert a (s.known n)), s.wires.send n targets a⟩

def State.receive (s : State N A) (src dst : N) : State N A := ⟨s.known, s.wires.receive src dst⟩

theorem State.mem_take {s : State N A} {n m : N} {a b : A} {targets : List N} :
    b ∈ (s.take n a targets).known m ↔ b ∈ s.known m ∨ m = n ∧ b = a := by
  by_cases h : m = n
  · subst h
    simp [take, or_comm]
  · simp [take, h]

/-- Taking an item and passing it on changes nothing at the front of a link. -/
theorem State.receive_take {s : State N A} {src dst n : N} {a b : A} {rest : List A} (h : s.wires src dst = b :: rest)
    (targets : List N) : (s.receive src dst).take n a targets = (s.take n a targets).receive src dst := by
  refine congrArg (State.mk _) ?_
  funext x y
  simp only [receive, take, Wires.send_apply, Wires.receive_apply]
  by_cases hxy : x = src ∧ y = dst
  · simp only [hxy, h]
    by_cases hn : src = n
    · simp [hn]
    · simp [hn]
  · simp only [if_neg hxy]

/-- Whether what a party has taken lets it take an item; more never hurts. -/
structure Order (A : Type) where
  ready : Set A → A → Prop
  mono : ∀ {t t' : Set A} {a : A}, t ⊆ t' → ready t a → ready t' a

variable (peers : N → List N) (order : Order A)

/-- A party brings in an item of its own, or reads the next one from a link: it takes it and passes it on, or it drops
one that it has or is not ready for. -/
inductive Step (s : State N A) : State N A → Prop
  | create {n : N} {a : A} : order.ready (s.known n) a → Step s (s.take n a (peers n))
  | pass {src dst : N} {a : A} {rest : List A} {targets : List N} : s.wires src dst = a :: rest →
    order.ready (s.known dst) a → targets ⊆ peers dst → (∀ m ∈ peers dst, m = src ∨ m ∈ targets) →
    Step s ((s.receive src dst).take dst a targets)
  | drop {src dst : N} {a : A} {rest : List A} : s.wires src dst = a :: rest →
    (a ∈ s.known dst ∨ ¬ order.ready (s.known dst) a) → Step s (s.receive src dst)

/-- What a party has taken is taken by its peers or on its way to them, behind what comes before it. -/
structure Causal (s : State N A) : Prop where
  sent : ∀ {x y a}, a ∈ s.wires x y → a ∈ s.known x
  reaches : ∀ {x y a}, y ∈ peers x → a ∈ s.known x → a ∈ s.known y ∨ a ∈ s.wires x y
  inOrder : ∀ {x y before a after}, s.wires x y = before ++ a :: after →
    a ∈ s.known y ∨ order.ready (s.known y ∪ {b | b ∈ before}) a

variable {peers order} {s s' : State N A}

omit [DecidableEq N] in
theorem Causal.ready_head (h : Causal peers order s) {src dst : N} {a : A} {rest : List A}
    (hw : s.wires src dst = a :: rest) : a ∈ s.known dst ∨ order.ready (s.known dst) a := by
  have := h.inOrder (show s.wires src dst = [] ++ a :: rest from hw)
  simpa using this

omit [DecidableEq N] in
theorem Causal.subset_of_path (h : Causal peers order s) (hq : s.wires.Quiet) {x y : N}
    (hp : Relation.ReflTransGen (fun x y => y ∈ peers x) x y) : s.known x ⊆ s.known y := by
  induction hp with
  | refl => exact subset_rfl
  | tail _ hyz ih =>
    intro a ha
    rcases h.reaches hyz (ih ha) with ha | ha
    · exact ha
    · rw [hq] at ha
      cases ha

/-- Reading an item that the reader has. -/
theorem Causal.receive (h : Causal peers order s) {src dst : N} {a : A} {rest : List A}
    (hw : s.wires src dst = a :: rest) (hk : a ∈ s.known dst) : Causal peers order (s.receive src dst) := by
  refine ⟨fun hb => h.sent (Wires.mem_of_receive hb), fun {x y b} hy hb => ?_, fun {x y before b after} he => ?_⟩
  · by_cases hxy : x = src ∧ y = dst
    · obtain ⟨rfl, rfl⟩ := hxy
      rcases h.reaches hy hb with hb' | hb'
      · exact Or.inl hb'
      · rw [hw, List.mem_cons] at hb'
        rcases hb' with rfl | hb'
        · exact Or.inl hk
        · exact Or.inr (by simp [State.receive, Wires.receive_apply, hw, hb'])
    · simpa [State.receive, Wires.receive_apply, hxy] using h.reaches hy hb
  · simp only [State.receive, Wires.receive_apply] at he ⊢
    by_cases hxy : x = src ∧ y = dst
    · obtain ⟨rfl, rfl⟩ := hxy
      rw [if_pos ⟨rfl, rfl⟩, hw, List.tail_cons] at he
      subst he
      rcases h.inOrder (show s.wires x y = (a :: before) ++ b :: after from hw) with hb | hb
      · exact Or.inl hb
      · refine Or.inr (order.mono ?_ hb)
        intro c hc
        rcases hc with hc | hc
        · exact Or.inl hc
        · rcases List.mem_cons.mp hc with rfl | hc
          · exact Or.inl hk
          · exact Or.inr hc
    · rw [if_neg hxy] at he
      exact h.inOrder he

/-- An item stands on a link where it stood before, or is the one that was just sent, behind all the rest. -/
theorem mem_send_split {w : Wires N A} {n x y : N} {targets : List N} {a b : A} {before after : List A}
    (h : w.send n targets a x y = before ++ b :: after) :
    (∃ before' after', w x y = before' ++ b :: after' ∧ before' ⊆ before) ∨
      x = n ∧ y ∈ targets ∧ b = a ∧ w x y ⊆ before := by
  rw [Wires.send_apply] at h
  by_cases hx : x = n
  · rw [if_pos hx, List.append_eq_append_iff] at h
    rcases h with ⟨more, rfl, hsent⟩ | ⟨more, hw, hsent⟩
    · have hb : b ∈ List.replicate (targets.count y) a := hsent ▸ (by simp)
      rw [List.mem_replicate, Ne, List.count_eq_zero, not_not] at hb
      exact Or.inr ⟨hx, hb.1, hb.2, by simp⟩
    · cases more with
      | nil =>
        have hb : b ∈ List.replicate (targets.count y) a := by
          rw [List.nil_append] at hsent
          simp [← hsent]
        rw [List.mem_replicate, Ne, List.count_eq_zero, not_not] at hb
        exact Or.inr ⟨hx, hb.1, hb.2, by simp [hw]⟩
      | cons c more =>
        rw [List.cons_append, List.cons.injEq] at hsent
        obtain ⟨rfl, -⟩ := hsent
        exact Or.inl ⟨before, more, hw, List.Subset.refl _⟩
  · rw [if_neg hx] at h
    exact Or.inl ⟨before, after, h, List.Subset.refl _⟩

/-- Taking an item that one is ready for, and sending it to all peers that do not have it. -/
theorem Causal.take (h : Causal peers order s) {n : N} {a : A} {targets : List N} (hr : order.ready (s.known n) a)
    (hsub : targets ⊆ peers n) (hall : ∀ m ∈ peers n, a ∈ s.known m ∨ m ∈ targets) :
    Causal peers order (s.take n a targets) := by
  refine ⟨fun {x y b} hb => ?_, fun {x y b} hy hb => ?_, fun {x y before b after} he => ?_⟩
  · rw [State.mem_take]
    rcases Wires.mem_send.mp hb with hb | ⟨rfl, -, rfl⟩
    · exact Or.inl (h.sent hb)
    · exact Or.inr ⟨rfl, rfl⟩
  · rw [State.mem_take] at hb ⊢
    rw [State.take, Wires.mem_send]
    rcases hb with hb | ⟨rfl, rfl⟩
    · rcases h.reaches hy hb with hb | hb
      · exact Or.inl (Or.inl hb)
      · exact Or.inr (Or.inl hb)
    · rcases hall y hy with hm | hm
      · exact Or.inl (Or.inl hm)
      · exact Or.inr (Or.inr ⟨rfl, hm, rfl⟩)
  · have hgrow : s.known y ⊆ (s.take n a targets).known y := fun c hc => State.mem_take.mpr (Or.inl hc)
    rcases mem_send_split he with ⟨before', after', he', hb⟩ | ⟨rfl, hy, rfl, hb⟩
    · rcases h.inOrder he' with hk | hk
      · exact Or.inl (hgrow hk)
      · exact Or.inr (order.mono (Set.union_subset_union hgrow hb) hk)
    · -- the sender was ready, and the peer has what the sender has, or will have read it by then
      refine Or.inr (order.mono ?_ hr)
      intro c hc
      rcases h.reaches (hsub hy) hc with hc | hc
      · exact Or.inl (hgrow hc)
      · exact Or.inr (hb hc)

theorem Step.causal (hs : Step peers order s s') (h : Causal peers order s) : Causal peers order s' := by
  cases hs with
  | create hr => exact h.take hr (List.Subset.refl _) fun m hm => Or.inr hm
  | @pass src dst a rest targets hw hr hsub hall =>
    have hsent : a ∈ s.known src := h.sent (by rw [hw]; exact List.mem_cons_self)
    have htaken := h.take hr hsub fun m hm => (hall m hm).imp (fun e : m = src => e.symm ▸ hsent) id
    rw [State.receive_take hw]
    have hfront : ∃ rest', (s.take dst a targets).wires src dst = a :: rest' := by
      simp only [State.take, Wires.send_apply, hw]
      by_cases hd : src = dst
      · exact ⟨_, by rw [if_pos hd]; rfl⟩
      · exact ⟨_, by rw [if_neg hd]⟩
    obtain ⟨rest', hw'⟩ := hfront
    exact htaken.receive hw' (State.mem_take.mpr (Or.inr ⟨rfl, rfl⟩))
  | drop hw hd =>
    rcases hd with hk | hn
    · exact h.receive hw hk
    · exact h.receive hw ((h.ready_head hw).resolve_right hn)

omit [DecidableEq N] in
/-- Nothing on its way, and all parties alike. -/
theorem Causal.of_quiet (hq : s.wires.Quiet) (hsame : ∀ x y, s.known x = s.known y) : Causal peers order s := by
  refine ⟨fun {x y a} ha => ?_, fun {x y a} _ ha => Or.inl (hsame x y ▸ ha), fun {x y before a after} he => ?_⟩
  · rw [hq] at ha
    cases ha
  · rw [hq] at he
    simp at he

end

end Flood
