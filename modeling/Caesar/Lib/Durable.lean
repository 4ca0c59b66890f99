import Mathlib.Data.List.GetD

/-!
# Files and a loss of power

A directory with a file and a second one that is to replace it. Running programs
see the page cache. After a loss of power a file has its content only if it was
synced after the last write to it, and a name may stand for any of the files it
has stood for since the directory was synced.
-/

namespace Durable

structure File (α : Type) where
  content : List α
  synced : Bool
  deriving DecidableEq

/-- `older` are the files that `main` has stood for before, since the directory was synced. -/
structure Dir (α : Type) where
  main : Option (File α)
  temp : Option (File α)
  older : List (Option (File α))
  deriving DecidableEq

/-- What a loss of power leaves: which of the files `main` stands for, the content of a file that was not synced, and
whatever stands in place of `temp`. -/
structure Loss (α : Type) where
  entry : Nat
  junk : List α
  temp : Option (List α)

namespace Dir

variable {α : Type}

def entries (d : Dir α) : List (Option (File α)) := d.main :: d.older

def create (d : Dir α) : Dir α := { d with temp := some ⟨[], false⟩ }

def write (content : List α) (d : Dir α) : Dir α :=
  { d with temp := d.temp.map fun file => ⟨file.content ++ content, false⟩ }

def sync (d : Dir α) : Dir α := { d with temp := d.temp.map fun file => { file with synced := true } }

def remove (d : Dir α) : Dir α := { d with temp := none }

def rename (d : Dir α) : Dir α := ⟨d.temp, none, d.main :: d.older⟩

def syncDir (d : Dir α) : Dir α := { d with older := [] }

def lose (loss : Loss α) (d : Dir α) : Dir α :=
  ⟨(d.entries.getD loss.entry d.main).map fun file => if file.synced then file else ⟨loss.junk, true⟩,
    loss.temp.map fun content => ⟨content, true⟩, []⟩

@[simp]
theorem entries_create (d : Dir α) : d.create.entries = d.entries := rfl

@[simp]
theorem entries_write (content : List α) (d : Dir α) : (d.write content).entries = d.entries := rfl

@[simp]
theorem entries_sync (d : Dir α) : d.sync.entries = d.entries := rfl

@[simp]
theorem entries_remove (d : Dir α) : d.remove.entries = d.entries := rfl

@[simp]
theorem entries_rename (d : Dir α) : d.rename.entries = d.temp :: d.entries := rfl

@[simp]
theorem entries_syncDir (d : Dir α) : d.syncDir.entries = [d.main] := rfl

/-- If every file that may be found was synced, one of them is found as it was. -/
theorem entries_lose {d : Dir α} (h : ∀ file, some file ∈ d.entries → file.synced = true) (loss : Loss α) :
    ∃ entry ∈ d.entries, (d.lose loss).entries = [entry] := by
  have hmem : d.entries.getD loss.entry d.main ∈ d.entries := by
    by_cases hlt : loss.entry < d.entries.length
    · rw [List.getD_eq_getElem _ _ hlt]
      exact List.getElem_mem hlt
    · rw [List.getD_eq_default _ _ (Nat.le_of_not_lt hlt)]
      exact List.mem_cons_self
  refine ⟨_, hmem, ?_⟩
  simp only [entries, lose]
  simp only [entries] at h hmem
  cases hentry : (d.main :: d.older).getD loss.entry d.main with
  | none => rfl
  | some file =>
    rw [hentry] at hmem
    simp [h file hmem]

end Dir

end Durable
