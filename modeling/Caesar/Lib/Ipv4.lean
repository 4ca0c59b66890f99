import Caesar.Lib.Text

/-!
# IPv4 addresses as text

The dotted decimal text of an address, and the strict reader of the C library: four
numbers below 256 without leading zeros, and nothing else. It reads exactly these
texts (`inetPton_iff`).
-/

namespace Ipv4

open Codec (Bytes)
open Text

def dot : UInt8 := 46

def octets (host : UInt32) : List Nat :=
  [host.toNat / 2 ^ 24, host.toNat / 2 ^ 16 % 256, host.toNat / 2 ^ 8 % 256, host.toNat % 256]

/-- `inet_ntop(AF_INET, ..)` -/
def dotted (host : UInt32) : Bytes := [dot].intercalate ((octets host).map decimal)

def octet (text : Bytes) : Option Nat :=
  if value text < 256 ∧ decimal (value text) = text then some (value text) else none

def ofOctets : List Nat → Option UInt32
  | [a, b, c, d] => some (UInt32.ofNat (((a * 256 + b) * 256 + c) * 256 + d))
  | _ => none

/-- `inet_pton(AF_INET, ..)` followed by `ntohl`. -/
def inetPton (text : Bytes) : Option UInt32 := ((text.splitOn dot).mapM octet).bind ofOctets

theorem octet_iff {text : Bytes} {n : Nat} : octet text = some n ↔ n < 256 ∧ text = decimal n := by
  unfold octet
  constructor
  · intro h
    split at h
    · rename_i hread
      rw [← Option.some.inj h]
      exact ⟨hread.1, hread.2.symm⟩
    · cases h
  · rintro ⟨hlt, rfl⟩
    rw [value_decimal, if_pos ⟨hlt, rfl⟩]

theorem mapM_octet_iff {texts : List Bytes} : ∀ {ns : List Nat},
    texts.mapM octet = some ns ↔ (∀ n ∈ ns, n < 256) ∧ texts = ns.map decimal := by
  induction texts with
  | nil =>
    intro ns
    cases ns <;> simp
  | cons text texts ih =>
    intro ns
    simp only [List.mapM_cons, Option.bind_eq_bind, Option.bind_eq_some_iff, octet_iff, ih, Option.pure_def,
      Option.some.injEq]
    constructor
    · rintro ⟨n, ⟨hn, rfl⟩, ns, ⟨hns, rfl⟩, rfl⟩
      exact ⟨List.forall_mem_cons.mpr ⟨hn, hns⟩, rfl⟩
    · rintro ⟨hall, htexts⟩
      cases ns with
      | nil => cases htexts
      | cons n ns =>
        rw [List.forall_mem_cons] at hall
        rw [List.map_cons, List.cons.injEq] at htexts
        exact ⟨n, ⟨hall.1, htexts.1⟩, ns, ⟨hall.2, htexts.2⟩, rfl⟩

theorem octets_lt (host : UInt32) : ∀ n ∈ octets host, n < 256 := by
  have hlt := host.toNat_lt
  simp only [octets, List.forall_mem_cons]
  refine ⟨?_, ?_, ?_, ?_, nofun⟩ <;> omega

theorem ofOctets_iff {ns : List Nat} {host : UInt32} (h : ∀ n ∈ ns, n < 256) :
    ofOctets ns = some host ↔ ns = octets host := by
  constructor
  · intro hof
    unfold ofOctets at hof
    split at hof
    · rename_i a b c d
      simp only [List.forall_mem_cons] at h
      obtain ⟨ha, hb, hc, hd, -⟩ := h
      rw [← Option.some.inj hof, octets, UInt32.toNat_ofNat', Nat.mod_eq_of_lt (by omega)]
      simp only [List.cons.injEq, and_true]
      omega
    · cases hof
  · rintro rfl
    have hlt := host.toNat_lt
    rw [octets, ofOctets, Option.some.injEq]
    apply UInt32.toNat_inj.mp
    rw [UInt32.toNat_ofNat', Nat.mod_eq_of_lt (by omega)]
    omega

theorem dot_notMem_decimal (n : Nat) : dot ∉ decimal n := by
  intro h
  exact absurd (isDigit_decimal h) (by decide)

theorem inetPton_iff {text : Bytes} {host : UInt32} : inetPton text = some host ↔ text = dotted host := by
  unfold inetPton
  rw [Option.bind_eq_some_iff]
  constructor
  · rintro ⟨ns, hread, hof⟩
    obtain ⟨hlt, htexts⟩ := mapM_octet_iff.mp hread
    rw [dotted, ← (ofOctets_iff hlt).mp hof, ← htexts, List.intercalate_splitOn]
  · rintro rfl
    have hsplit : (dotted host).splitOn dot = (octets host).map decimal := by
      apply List.splitOn_intercalate
      · intro text htext
        obtain ⟨n, -, rfl⟩ := List.mem_map.mp htext
        exact dot_notMem_decimal n
      · simp [octets]
    refine ⟨octets host, ?_, (ofOctets_iff (octets_lt host)).mpr rfl⟩
    rw [hsplit, mapM_octet_iff]
    exact ⟨octets_lt host, rfl⟩

theorem dotted_injective : Function.Injective dotted := by
  intro a b h
  have ha := inetPton_iff.mpr h
  rw [inetPton_iff.mpr rfl] at ha
  exact Option.some.inj ha

theorem mem_dotted {host : UInt32} {b : UInt8} (h : b ∈ dotted host) : b = dot ∨ isDigit b := by
  simp only [dotted, octets, List.map_cons, List.map_nil, List.intercalate, List.intersperse, List.flatten_cons,
    List.mem_append, List.mem_singleton, List.flatten_nil, List.not_mem_nil, or_false] at h
  rcases h with h | rfl | h | rfl | h | rfl | h
  · exact Or.inr (isDigit_decimal h)
  · exact Or.inl rfl
  · exact Or.inr (isDigit_decimal h)
  · exact Or.inl rfl
  · exact Or.inr (isDigit_decimal h)
  · exact Or.inl rfl
  · exact Or.inr (isDigit_decimal h)

theorem zero_notMem_dotted (host : UInt32) : (0 : UInt8) ∉ dotted host := by
  intro h
  rcases mem_dotted h with hdot | hdigit
  · exact absurd hdot (by decide)
  · exact absurd hdigit (by decide)

theorem dotted_ne_nil (host : UInt32) : dotted host ≠ [] := by
  intro h
  have hread : inetPton [] = some host := inetPton_iff.mpr h.symm
  exact absurd hread (by simp [inetPton, octet, value, decimal, ofOctets])

end Ipv4
