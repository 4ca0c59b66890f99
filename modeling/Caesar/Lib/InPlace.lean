import Mathlib.Data.List.Basic

/-!
# Routines that change a state in place

A routine says whether it succeeded, or throws, and leaves a state in either
case. One that stops half-way leaves what it has changed so far; `outcome`
forgets that state.
-/

namespace InPlace

variable {ε S : Type}

abbrev Routine (ε S : Type) := S → Except ε Bool × S

def done : Routine ε S := fun s => (.ok true, s)

/-- One change, which fails where `f` is not defined. -/
def attempt (f : S → Option S) : Routine ε S := fun s =>
  match f s with
  | none => (.ok false, s)
  | some s => (.ok true, s)

/-- A test that changes nothing. -/
def check (f : S → Except ε Bool) : Routine ε S := fun s => (f s, s)

def using_ {α : Type} (x : Except ε α) (f : α → Routine ε S) : Routine ε S :=
  match x with
  | .ok a => f a
  | .error e => fun s => (.error e, s)

/-- `next` runs only after a success, on the state `first` left. -/
def andThen (first next : Routine ε S) : Routine ε S := fun s =>
  match first s with
  | (.ok true, s) => next s
  | (.ok false, s) => (.ok false, s)
  | (.error e, s) => (.error e, s)

/-- The state of a run that succeeded. -/
def outcome (routine : Routine ε S) (s : S) : Except ε (Option S) :=
  match routine s with
  | (.ok true, s) => .ok (some s)
  | (.ok false, _) => .ok none
  | (.error e, _) => .error e

theorem outcome_attempt (f : S → Option S) (s : S) : outcome (attempt f : Routine ε S) s = .ok (f s) := by
  unfold outcome attempt
  cases f s <;> rfl

theorem outcome_andThen (first next : Routine ε S) (s : S) : outcome (andThen first next) s =
    match outcome first s with
    | .ok (some s) => outcome next s
    | .ok none => .ok none
    | .error e => .error e := by
  unfold outcome andThen
  rcases first s with ⟨_ | _ | _, s⟩ <;> rfl

theorem outcome_check {f : S → Except ε Bool} (next : Routine ε S) (s : S) : outcome (andThen (check f) next) s =
    match f s with
    | .ok true => outcome next s
    | .ok false => .ok none
    | .error e => .error e := by
  unfold outcome andThen check
  rcases f s with _ | _ | _ <;> rfl

/-! ## What a routine returned -/

section
variable {routine : Routine ε S} {s : S}

theorem outcome_some {t : S} (h : outcome routine s = .ok (some t)) : routine s = (.ok true, t) := by
  unfold outcome at h
  rcases hr : routine s with ⟨_ | _ | _, w⟩
  · simp [hr] at h
  · simp [hr] at h
  · simpa [hr] using h

theorem outcome_none (h : outcome routine s = .ok none) : (routine s).1 = .ok false := by
  unfold outcome at h
  rcases hr : routine s with ⟨_ | _ | _, w⟩
  · simp [hr] at h
  · rfl
  · simp [hr] at h

theorem outcome_error {e : ε} (h : outcome routine s = .error e) : (routine s).1 = .error e := by
  unfold outcome at h
  rcases hr : routine s with ⟨_ | _ | _, w⟩
  · simpa [hr] using h
  · simp [hr] at h
  · simp [hr] at h

end

end InPlace
