import Mathlib.Data.List.Basic

/-!
# Scripts of operations with one fault

A script is a list of operations on a state. At one place of it an operation may
be made to fail, or the script may be stopped before an operation. A failure is
thrown after a cleanup, or nobody looks and the script goes on.
-/

namespace Script

/-- The operations `O` on states `S`. An operation that cannot be done in a state fails by itself. -/
structure Machine (S O : Type) where
  act : O → S → Option S
  /-- What an operation leaves that was made to fail after a part of its work. -/
  spoil : Nat → O → S → S
  /-- What a failure throws; `none` if nobody looks. -/
  error : O → Option String
  cleanup : O → S → S

inductive Kind where
  | fail (done : Nat)
  | stop
  deriving DecidableEq

structure Fault where
  position : Nat
  kind : Kind
  deriving DecidableEq

inductive Halt where
  | threw (what : String)
  | stopped
  deriving DecidableEq

/-- The fault as the script sees it that follows so many operations. -/
def after (n : Nat) : Option Fault → Option Fault
  | none => none
  | some fault => if n ≤ fault.position then some ⟨fault.position - n, fault.kind⟩ else none

theorem mem_after {n : Nat} {fault : Option Fault} {f : Fault} :
    f ∈ after n fault ↔ ∃ g ∈ fault, n ≤ g.position ∧ f = ⟨g.position - n, g.kind⟩ := by
  cases fault with
  | none => simp [after]
  | some g => simp [after, eq_comm]

theorem after_after (a b : Nat) : ∀ fault, after b (after a fault) = after (a + b) fault
  | none => rfl
  | some ⟨position, kind⟩ => by
    by_cases ha : a ≤ position
    · by_cases hb : b ≤ position - a
      · simp only [after, if_pos ha, if_pos hb, if_pos (show a + b ≤ position by omega), Nat.sub_sub]
      · simp only [after, if_pos ha, if_neg hb, if_neg (show ¬ a + b ≤ position by omega)]
    · simp only [after, if_neg ha, if_neg (show ¬ a + b ≤ position by omega)]

variable {S O : Type} (m : Machine S O)

/-- Why the script ended early, and the state it left. -/
def perform (fault : Option Fault) : List O → S → Option Halt × S
  | [], s => (none, s)
  | op :: rest, s =>
    match fault with
    | some ⟨0, .stop⟩ => (some .stopped, s)
    | some ⟨0, .fail done⟩ =>
      match m.error op with
      | some what => (some (.threw what), m.cleanup op (m.spoil done op s))
      | none => perform none rest (m.spoil done op s)
    | fault =>
      match m.act op s with
      | some s => perform (after 1 fault) rest s
      | none =>
        match m.error op with
        | some what => (some (.threw what), m.cleanup op s)
        | none => perform (after 1 fault) rest s

theorem perform_cons {op : O} {rest : List O} {fault : Option Fault} (s : S) (h : ∀ f ∈ fault, f.position ≠ 0) :
    perform m fault (op :: rest) s = match m.act op s with
      | some s => perform m (after 1 fault) rest s
      | none => match m.error op with
        | some what => (some (.threw what), m.cleanup op s)
        | none => perform m (after 1 fault) rest s := by
  match fault, h with
  | none, _ => rfl
  | some ⟨0, _⟩, h => exact absurd rfl (h _ rfl)
  | some ⟨_ + 1, _⟩, _ => rfl

/-- A script after another: it starts when the first came to its end. -/
theorem perform_append (second : List O) : ∀ (first : List O) (fault : Option Fault) (s : S),
    perform m fault (first ++ second) s = match perform m fault first s with
      | (some halt, s) => (some halt, s)
      | (none, s) => perform m (after first.length fault) second s
  | [], fault, s => by
    have hsame : after 0 fault = fault := by
      cases fault with
      | none => rfl
      | some fault => simp [after]
    rw [List.length_nil, hsame]
    rfl
  | op :: rest, fault, s => by
    have hnext : after (op :: rest).length fault = after rest.length (after 1 fault) := by
      rw [after_after, List.length_cons, Nat.add_comm]
    by_cases hlater : ∀ f ∈ fault, f.position ≠ 0
    · rw [List.cons_append, perform_cons m s hlater, perform_cons m s hlater, hnext]
      cases m.act op s with
      | some s' => exact perform_append second rest _ s'
      | none =>
        cases m.error op with
        | some what => rfl
        | none => exact perform_append second rest _ s
    · simp only [not_forall, not_not] at hlater
      obtain ⟨⟨position, kind⟩, rfl, rfl⟩ := hlater
      cases kind with
      | stop => rfl
      | fail done =>
        -- the fault is spent with this operation
        have hspent : after rest.length (after 1 (some ⟨0, .fail done⟩)) = after rest.length none := rfl
        rw [hnext, hspent, List.cons_append, perform, perform]
        cases m.error op with
        | some what => rfl
        | none => exact perform_append second rest none _

/-- What every operation keeps, also when it fails and is cleaned up after, a script keeps. -/
theorem perform_keeps {P : S → Prop} : ∀ {ops : List O}, (∀ op ∈ ops, ∀ s, P s → (∀ s', m.act op s = some s' → P s') ∧
      (∀ done, P (m.spoil done op s)) ∧ P (m.cleanup op s)) →
    ∀ (fault : Option Fault) {s : S}, P s → P (perform m fault ops s).2
  | [], _, _, s, hs => hs
  | op :: rest, hall, fault, s, hs => by
    rw [List.forall_mem_cons] at hall
    obtain ⟨hop, hrest⟩ := hall
    by_cases hlater : ∀ f ∈ fault, f.position ≠ 0
    · rw [perform_cons m s hlater]
      cases hact : m.act op s with
      | some s' => exact perform_keeps hrest _ ((hop s hs).1 s' hact)
      | none =>
        cases m.error op with
        | some what => exact (hop s hs).2.2
        | none => exact perform_keeps hrest _ hs
    · simp only [not_forall, not_not] at hlater
      obtain ⟨⟨position, kind⟩, rfl, rfl⟩ := hlater
      cases kind with
      | stop => exact hs
      | fail done =>
        have hspoiled := (hop s hs).2.1 done
        rw [perform]
        cases m.error op with
        | some what => exact (hop _ hspoiled).2.2
        | none => exact perform_keeps hrest none hspoiled

theorem perform_none_ne_stopped : ∀ (ops : List O) (s : S), (perform m none ops s).1 ≠ some .stopped
  | [], _ => nofun
  | op :: rest, s => by
    have hnone : ∀ f ∈ (none : Option Fault), f.position ≠ 0 := nofun
    rw [perform_cons m s hnone]
    cases m.act op s with
    | some s' => exact perform_none_ne_stopped rest s'
    | none =>
      cases m.error op with
      | some what => nofun
      | none => exact perform_none_ne_stopped rest s

/-- A script whose failures are all thrown, and that came to its end, has done all its operations. -/
theorem perform_complete : ∀ {ops : List O} {fault : Option Fault} {s s' : S}, (∀ op ∈ ops, m.error op ≠ none) →
    perform m fault ops s = (none, s') → ops.foldlM (fun s op => m.act op s) s = some s'
  | [], _, _, _, _, h => congrArg some (Prod.mk.inj h).2
  | op :: rest, fault, s, s', hall, h => by
    rw [List.forall_mem_cons] at hall
    obtain ⟨what, hwhat⟩ := Option.ne_none_iff_exists'.mp hall.1
    by_cases hlater : ∀ f ∈ fault, f.position ≠ 0
    · rw [perform_cons m s hlater, hwhat] at h
      cases hact : m.act op s with
      | some next =>
        rw [hact] at h
        rw [List.foldlM_cons, hact]
        exact perform_complete hall.2 h
      | none =>
        rw [hact] at h
        cases h
    · simp only [not_forall, not_not] at hlater
      obtain ⟨⟨position, kind⟩, rfl, rfl⟩ := hlater
      cases kind with
      | stop => cases h
      | fail done =>
        rw [perform, hwhat] at h
        cases h

/-- Where the operations of one machine are those of another seen through `f`, so are its scripts. -/
theorem perform_map {T : Type} {m : Machine S O} {n : Machine T O} {f : S → T}
    (hact : ∀ op s, n.act op (f s) = (m.act op s).map f)
    (hspoil : ∀ done op s, n.spoil done op (f s) = f (m.spoil done op s)) (herror : n.error = m.error)
    (hcleanup : ∀ op s, n.cleanup op (f s) = f (m.cleanup op s)) : ∀ (ops : List O) (fault : Option Fault) (s : S),
    perform n fault ops (f s) = ((perform m fault ops s).1, f (perform m fault ops s).2)
  | [], _, _ => rfl
  | op :: rest, fault, s => by
    have ih := perform_map hact hspoil herror hcleanup rest
    by_cases hlater : ∀ f ∈ fault, f.position ≠ 0
    · rw [perform_cons n (f s) hlater, perform_cons m s hlater, hact, herror]
      cases m.act op s with
      | some next => exact ih _ next
      | none =>
        cases m.error op with
        | some what => simp [hcleanup]
        | none => exact ih _ s
    · simp only [not_forall, not_not] at hlater
      obtain ⟨⟨position, kind⟩, rfl, rfl⟩ := hlater
      cases kind with
      | stop => rfl
      | fail done =>
        rw [perform, perform, herror, hspoil]
        cases m.error op with
        | some what => simp [hcleanup]
        | none => exact ih none _

end Script
