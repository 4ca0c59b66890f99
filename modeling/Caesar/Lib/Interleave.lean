import Mathlib.Data.List.Basic
import Mathlib.Data.List.Induction

/-!
# Interleaved threads

A system with a shared state and threads. An event from outside changes the
shared state and may start a thread; a thread advances by one atomic section at
a time, and ends when nothing is left of it. `run_invariant` is the rule for what
holds in every interleaving: a property of the shared state, and one of each
thread that no section of another breaks.
-/

namespace Interleave

/-- `S` is the shared state, `T` what is left of a thread; `E` are the events from outside and `C` the choices that a
section depends on. -/
structure System (S T E C : Type) where
  spawn : E → S → S × Option T
  advance : C → S → T → S × Option T

structure Config (S T : Type) where
  shared : S
  threads : List T

inductive Event (E C : Type) where
  | spawn (event : E)
  | advance (i : Nat) (choice : C)

variable {S T E C : Type}

namespace System

variable (sys : System S T E C)

def step (c : Config S T) : Event E C → Config S T
  | .spawn event => ⟨(sys.spawn event c.shared).1, c.threads ++ (sys.spawn event c.shared).2.toList⟩
  | .advance i choice =>
    match c.threads[i]? with
    | none => c
    | some t => ⟨(sys.advance choice c.shared t).1, match (sys.advance choice c.shared t).2 with
      | none => c.threads.eraseIdx i
      | some t => c.threads.set i t⟩

def run (events : List (Event E C)) (c : Config S T) : Config S T := events.foldl sys.step c

/-- What one section may do: the property of the shared state holds after it, its own thread has its property, and so has
every thread that had it before. -/
structure Keeps (I : S → Prop) (J : S → T → Prop) (s : S) (r : S × Option T) : Prop where
  shared : I r.1
  own : ∀ t ∈ r.2, J r.1 t
  others : ∀ u, J s u → J r.1 u

def Admits (P : E → Prop) (events : List (Event E C)) : Prop := ∀ event, .spawn event ∈ events → P event

section
variable {sys} {I : S → Prop} {J : S → T → Prop} {P : E → Prop}

theorem Keeps.ended {s after : S} (h : I after) (hothers : ∀ u, J s u → J after u) : Keeps I J s (after, none) :=
  ⟨h, nofun, hothers⟩

theorem step_invariant (hspawn : ∀ event s, P event → I s → Keeps I J s (sys.spawn event s))
    (hadvance : ∀ choice s t, I s → J s t → Keeps I J s (sys.advance choice s t)) {c : Config S T} {event : Event E C}
    (hP : ∀ e, event = .spawn e → P e) (h : I c.shared ∧ ∀ t ∈ c.threads, J c.shared t) :
    I (sys.step c event).shared ∧ ∀ t ∈ (sys.step c event).threads, J (sys.step c event).shared t := by
  cases event with
  | spawn e =>
    have hk := hspawn e c.shared (hP e rfl) h.1
    refine ⟨hk.shared, fun t ht => ?_⟩
    rcases List.mem_append.mp ht with ht | ht
    · exact hk.others t (h.2 t ht)
    · exact hk.own t (Option.mem_toList.mp ht)
  | advance i choice =>
    rw [step]
    cases hi : c.threads[i]? with
    | none => exact h
    | some t =>
      have hk := hadvance choice c.shared t h.1 (h.2 t (List.mem_of_getElem? hi))
      refine ⟨hk.shared, fun u hu => ?_⟩
      dsimp only at hu ⊢
      cases hr : (sys.advance choice c.shared t).2 with
      | none =>
        rw [hr] at hu
        exact hk.others u (h.2 u (List.mem_of_mem_eraseIdx hu))
      | some t' =>
        rw [hr] at hu
        rcases List.mem_or_eq_of_mem_set hu with hu | rfl
        · exact hk.others u (h.2 u hu)
        · exact hk.own u hr

/-- What every section keeps holds in every run. -/
theorem run_invariant (hspawn : ∀ event s, P event → I s → Keeps I J s (sys.spawn event s))
    (hadvance : ∀ choice s t, I s → J s t → Keeps I J s (sys.advance choice s t)) :
    ∀ {events : List (Event E C)} {c : Config S T}, Admits P events → I c.shared ∧ (∀ t ∈ c.threads, J c.shared t) →
      I (sys.run events c).shared ∧ ∀ t ∈ (sys.run events c).threads, J (sys.run events c).shared t
  | [], _, _, h => h
  | event :: _, c, hP, h =>
    run_invariant (c := sys.step c event) hspawn hadvance (fun e he => hP e (List.mem_cons_of_mem _ he))
      (step_invariant hspawn hadvance (fun e he => hP e (he ▸ List.mem_cons_self)) h)

theorem run_snoc (events : List (Event E C)) (event : Event E C) (c : Config S T) :
    sys.run (events ++ [event]) c = sys.step (sys.run events c) event := by
  simp [run]

/-- What a section keeps exactly when it is fair holds throughout a run exactly when all its sections are. -/
theorem run_throughout_iff {Q : Config S T → Prop} {fair : Config S T → Event E C → Prop} {events : List (Event E C)}
    (hstep : ∀ c, ∀ event ∈ events, Q c → (Q (sys.step c event) ↔ fair c event)) {c : Config S T} (hc : Q c) :
    (∀ before, before <+: events → Q (sys.run before c)) ↔
      ∀ before event, before ++ [event] <+: events → fair (sys.run before c) event := by
  have hmem : ∀ {before event}, before ++ [event] <+: events → event ∈ events :=
    fun hbefore => hbefore.subset (by simp)
  constructor
  · intro h before event hbefore
    have hQ := h before ((List.prefix_append before [event]).trans hbefore)
    rw [← hstep _ _ (hmem hbefore) hQ, ← run_snoc]
    exact h _ hbefore
  · intro h before
    induction before using List.reverseRecOn with
    | nil => exact fun _ => hc
    | append_singleton before event ih =>
      intro hbefore
      have hQ := ih ((List.prefix_append before [event]).trans hbefore)
      rw [run_snoc, hstep _ _ (hmem hbefore) hQ]
      exact h before event hbefore

theorem run_fair_nil {fair : Config S T → Event E C → Prop} {c : Config S T} :
    ∀ before event, before ++ [event] <+: [] → fair (sys.run before c) event :=
  fun _ _ h => absurd (List.prefix_nil.mp h) (by simp)

theorem run_fair_cons {fair : Config S T → Event E C → Prop} {first : Event E C} {events : List (Event E C)} {c : Config S T}
    (hfirst : fair c first)
    (hrest : ∀ before event, before ++ [event] <+: events → fair (sys.run before (sys.step c first)) event) :
    ∀ before event, before ++ [event] <+: first :: events → fair (sys.run before c) event := by
  intro before event h
  cases before with
  | nil =>
    obtain rfl := (List.cons_prefix_cons.mp h).1
    exact hfirst
  | cons _ before =>
    obtain ⟨rfl, hbefore⟩ := List.cons_prefix_cons.mp h
    exact hrest before event hbefore

end

end System

/-! ## The other threads -/

theorem mem_eraseIdx_of_ne {α : Type} {l : List α} {i : Nat} {a b : α} (hi : l[i]? = some b) (ha : a ∈ l) (hne : a ≠ b) :
    a ∈ l.eraseIdx i := by
  obtain ⟨j, hj⟩ := List.mem_iff_getElem?.mp ha
  rw [List.mem_eraseIdx_iff_getElem?]
  refine ⟨j, ?_, hj⟩
  rintro rfl
  exact hne (Option.some.inj (hj.symm.trans hi))

theorem mem_set_iff_of_ne {α : Type} {l : List α} {i : Nat} {a b c : α} (hi : l[i]? = some b) (hne : a ≠ b) :
    a ∈ l.set i c ↔ a = c ∨ a ∈ l := by
  constructor
  · intro h
    rcases List.mem_or_eq_of_mem_set h with h | h
    · exact Or.inr h
    · exact Or.inl h
  · rintro (rfl | ha)
    · exact List.mem_set (List.getElem?_eq_some_iff.mp hi).1 _
    · obtain ⟨j, hj⟩ := List.mem_iff_getElem?.mp ha
      refine List.mem_iff_getElem?.mpr ⟨j, ?_⟩
      have hij : i ≠ j := by
        rintro rfl
        exact hne (Option.some.inj (hj.symm.trans hi))
      rw [List.getElem?_set_ne hij]
      exact hj

end Interleave
