import Mathlib.Data.List.Basic
import Mathlib.Data.Nat.Bitwise

/-!
# Byte strings: little-endian integers and readers

A reader takes a value off the front of a byte string. `Exact d P enc` says that
it accepts the encodings of the values with `P` and nothing else; readers built
with `andThen` and `readMany` are exact when their parts are.
-/

namespace Codec

abbrev Bytes := List UInt8

/-! ## Little-endian integers -/

def leNat : Bytes → Nat
  | [] => 0
  | b :: bs => b.toNat + 256 * leNat bs

def leBytes : Nat → Nat → Bytes
  | 0, _ => []
  | w + 1, n => UInt8.ofNat n :: leBytes w (n / 256)

@[simp] theorem leBytes_length (w n : Nat) : (leBytes w n).length = w := by
  induction w generalizing n with
  | zero => rfl
  | succ w ih => simp [leBytes, ih]

theorem leNat_leBytes : ∀ (w n : Nat), n < 256 ^ w → leNat (leBytes w n) = n
  | 0, n, h => by simp at h; simp [leBytes, leNat, h]
  | w + 1, n, h => by
    have hd : n / 256 < 256 ^ w := by rw [Nat.pow_succ] at h; omega
    simp only [leBytes, leNat, leNat_leBytes w _ hd, UInt8.toNat_ofNat']
    omega

theorem leBytes_leNat : ∀ bs : Bytes, leBytes bs.length (leNat bs) = bs
  | [] => rfl
  | b :: bs => by
    have hb : b.toNat < 256 := b.toNat_lt
    have hd : (b.toNat + 256 * leNat bs) / 256 = leNat bs := by omega
    have hm : UInt8.ofNat (b.toNat + 256 * leNat bs) = b := by
      apply UInt8.toNat.inj
      simp only [UInt8.toNat_ofNat']
      omega
    simp only [List.length_cons, leNat, leBytes, hd, hm, leBytes_leNat bs]

theorem leNat_lt : ∀ bs : Bytes, leNat bs < 256 ^ bs.length
  | [] => by simp [leNat]
  | b :: bs => by
    have hb : b.toNat < 256 := b.toNat_lt
    have ih := leNat_lt bs
    simp only [leNat, List.length_cons, Nat.pow_succ]
    omega

/-! ## Readers -/

section
variable {ε α β : Type}

abbrev Reader (ε α : Type) := Bytes → Except ε (α × Bytes)

/-- `d` reads exactly the encodings of the values with `P`, and leaves what follows. -/
def Exact (d : Reader ε α) (P : α → Prop) (enc : α → Bytes) : Prop :=
  ∀ s x rest, d s = .ok (x, rest) ↔ P x ∧ s = enc x ++ rest

def Reader.andThen (d : Reader ε α) (f : α → Reader ε β) : Reader ε β := fun s =>
  match d s with
  | .ok (x, rest) => f x rest
  | .error e => .error e

def readMany (d : Reader ε α) : Nat → Reader ε (List α)
  | 0 => fun s => .ok ([], s)
  | n + 1 => d.andThen fun x => (readMany d n).andThen fun xs s => .ok (x :: xs, s)

theorem andThen_ok {d : Reader ε α} {f : α → Reader ε β} {s rest : Bytes} {y : β} :
    d.andThen f s = .ok (y, rest) ↔ ∃ x t, d s = .ok (x, t) ∧ f x t = .ok (y, rest) := by
  unfold Reader.andThen
  cases h : d s with
  | error e => simp
  | ok p => obtain ⟨x, t⟩ := p; simp

theorem Exact.inj {d : Reader ε α} {P : α → Prop} {enc : α → Bytes} (hd : Exact d P enc) {x y : α} {s t : Bytes}
    (hx : P x) (hy : P y) (h : enc x ++ s = enc y ++ t) : x = y ∧ s = t := by
  have h₁ := (hd (enc x ++ s) x s).mpr ⟨hx, rfl⟩
  rw [(hd _ y t).mpr ⟨hy, h⟩] at h₁
  simp only [Except.ok.injEq, Prod.mk.injEq] at h₁
  exact ⟨h₁.1.symm, h₁.2.symm⟩

theorem readMany_ok {d : Reader ε α} {P : α → Prop} {enc : α → Bytes} (hd : Exact d P enc) :
    ∀ (n : Nat) (s : Bytes) (xs : List α) (rest : Bytes), readMany d n s = .ok (xs, rest) ↔
      xs.length = n ∧ (∀ x ∈ xs, P x) ∧ s = xs.flatMap enc ++ rest
  | 0, s, xs, rest => by
    simp only [readMany, Except.ok.injEq, Prod.mk.injEq, List.length_eq_zero_iff]
    refine ⟨?_, ?_⟩
    · intro hx
      obtain ⟨rfl, rfl⟩ := hx
      simp
    · intro hx
      obtain ⟨rfl, -, rfl⟩ := hx
      simp
  | n + 1, s, xs, rest => by
    have ih := readMany_ok hd n
    simp only [readMany, andThen_ok, ih, hd s, Except.ok.injEq, Prod.mk.injEq]
    refine ⟨?_, ?_⟩
    · intro hx
      obtain ⟨x, t, ⟨hx, rfl⟩, ys, u, ⟨hl, hys, rfl⟩, rfl, rfl⟩ := hx
      simp only [List.length_cons, hl, List.mem_cons, List.flatMap_cons, List.append_assoc, and_true, true_and]
      intro y hy
      rcases hy with rfl | hy
      · exact hx
      · exact hys y hy
    · intro hx
      obtain ⟨hl, hxs, rfl⟩ := hx
      cases xs with
      | nil => simp at hl
      | cons x xs =>
        refine ⟨x, xs.flatMap enc ++ rest, ⟨hxs x (by simp), by simp⟩, xs, rest, ⟨by simpa using hl, ?_, rfl⟩, rfl, rfl⟩
        exact fun y hy => hxs y (by simp [hy])

theorem Exact.counted {c : Reader ε Nat} {C : Nat → Prop} {size : Nat → Bytes} (hc : Exact c C size) {d : Reader ε α}
    {P : α → Prop} {enc : α → Bytes} (hd : Exact d P enc) :
    Exact (c.andThen fun n => readMany d n) (fun xs => C xs.length ∧ ∀ x ∈ xs, P x)
      fun xs => size xs.length ++ xs.flatMap enc := by
  intro s xs rest
  simp only [andThen_ok, hc s, readMany_ok hd, List.append_assoc]
  refine ⟨?_, ?_⟩
  · intro h
    obtain ⟨n, r, ⟨hn, rfl⟩, hl, hxs, rfl⟩ := h
    exact ⟨⟨hl ▸ hn, hxs⟩, by rw [hl]⟩
  · intro h
    exact ⟨xs.length, _, ⟨h.1.1, h.2⟩, rfl, h.1.2, rfl⟩

/-- A decoder undoes its encoder, and what it accepts is what the encoder makes of the value. -/
def MutuallyInverse (encode : α → Except ε Bytes) (decode : Bytes → Except ε α) : Prop :=
  ∀ x data, encode x = .ok data ↔ decode data = .ok x

end

end Codec
