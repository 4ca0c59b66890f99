import Caesar.Lib.Codec
import Mathlib.Data.List.TakeWhile
import Mathlib.Data.Nat.Digits.Defs

/-!
# Text: decimal numbers, words, lines and fields

Printers and readers of the plain text formats of the C and C++ libraries:
`strtoull` and the extraction operators of a stream, `getline`, and fields
between separators.
-/

namespace Text

open Codec (Bytes)

instance lawfulOrderLT : Std.LawfulOrderLT Bytes := inferInstance

def ascii (s : String) : Bytes := s.toList.map fun c => UInt8.ofNat c.toNat

def newline : UInt8 := 10

def isSpace (b : UInt8) : Bool := b = 32 || (9 ≤ b && b ≤ 13)

def isDigit (b : UInt8) : Bool := 48 ≤ b && b ≤ 57

/-- A class that one byte is in and another is not tells them apart. -/
theorem ne_of_class {p : UInt8 → Bool} {b c : UInt8} (hb : p b) (hc : p c = false) : b ≠ c := by
  intro h
  rw [h, hc] at hb
  cases hb

theorem isSpace_of_isDigit {b : UInt8} (h : isDigit b) : isSpace b = false := by
  simp only [isDigit, Bool.and_eq_true, decide_eq_true_eq, UInt8.le_iff_toNat_le, UInt8.reduceToNat] at h
  simp only [isSpace, Bool.or_eq_false_iff, Bool.and_eq_false_iff, decide_eq_false_iff_not, UInt8.le_iff_toNat_le,
    ← UInt8.toNat_inj, UInt8.reduceToNat]
  omega

section
variable {α : Type} {p : α → Bool}

/-- A run ends at the first element outside of it. -/
theorem takeWhile_run {xs rest : List α} (hx : ∀ x ∈ xs, p x) (hr : ∀ x ∈ rest.head?, p x = false) :
    (xs ++ rest).takeWhile p = xs := by
  rw [List.takeWhile_append_of_pos hx]
  cases rest with
  | nil => exact List.append_nil xs
  | cons r rest => rw [List.takeWhile_cons_of_neg (by simpa using hr), List.append_nil]

theorem dropWhile_run {xs rest : List α} (hx : ∀ x ∈ xs, p x) (hr : ∀ x ∈ rest.head?, p x = false) :
    (xs ++ rest).dropWhile p = rest := by
  rw [List.dropWhile_append_of_pos hx]
  cases rest with
  | nil => rfl
  | cons r rest => exact List.dropWhile_cons_of_neg (by simpa using hr)

end

/-! ## Decimal numbers -/

def digit (d : Nat) : UInt8 := UInt8.ofNat (48 + d)

def decimal (n : Nat) : Bytes := if n = 0 then [digit 0] else ((Nat.digits 10 n).map digit).reverse

def value (ds : Bytes) : Nat := ds.foldl (fun v b => 10 * v + (b.toNat - 48)) 0

theorem digit_toNat {d : Nat} (h : d < 10) : (digit d).toNat = 48 + d := by
  rw [digit, UInt8.toNat_ofNat', Nat.mod_eq_of_lt (by omega)]

theorem isDigit_digit {d : Nat} (h : d < 10) : isDigit (digit d) := by
  simp only [isDigit, Bool.and_eq_true, decide_eq_true_eq, UInt8.le_iff_toNat_le, UInt8.reduceToNat, digit_toNat h]
  omega

theorem isDigit_decimal {n : Nat} {b : UInt8} (h : b ∈ decimal n) : isDigit b := by
  rw [decimal] at h
  split at h
  · rw [List.mem_singleton.mp h]
    exact isDigit_digit (by decide)
  · obtain ⟨d, hd, rfl⟩ := List.mem_map.mp (List.mem_reverse.mp h)
    exact isDigit_digit (Nat.digits_lt_base (by decide) hd)

theorem decimal_ne_nil (n : Nat) : decimal n ≠ [] := by
  rw [decimal]
  split
  · simp
  · rename_i h
    simpa [Nat.digits_eq_nil_iff_eq_zero] using h

theorem value_digits : ∀ {ds : List Nat}, (∀ d ∈ ds, d < 10) → value (ds.map digit).reverse = Nat.ofDigits 10 ds
  | [], _ => rfl
  | d :: ds, h => by
    rw [List.forall_mem_cons] at h
    have hrest : value (ds.map digit).reverse = Nat.ofDigits 10 ds := value_digits h.2
    rw [value] at hrest
    rw [List.map_cons, List.reverse_cons, value, List.foldl_append, hrest, List.foldl_cons, List.foldl_nil, digit_toNat h.1,
      Nat.ofDigits_cons]
    omega

theorem value_decimal (n : Nat) : value (decimal n) = n := by
  rw [decimal]
  split
  · rename_i h
    rw [h]
    rfl
  · rw [value_digits fun d hd => Nat.digits_lt_base (by decide) hd, Nat.ofDigits_digits]

/-- An optional minus or plus in front. -/
def unsign : Bytes → Bool × Bytes
  | 45 :: rest => (true, rest)
  | 43 :: rest => (false, rest)
  | bs => (false, bs)

/-- Blanks, a sign and digits: whether there was a minus, the number and what
follows it. Without a digit there is no number. -/
def scan (bs : Bytes) : Option (Bool × Nat × Bytes) :=
  let (negative, rest) := unsign (bs.dropWhile isSpace)
  let digits := rest.takeWhile isDigit
  if digits = [] then none else some (negative, value digits, rest.dropWhile isDigit)

theorem unsign_digit {b : UInt8} {bs : Bytes} (h : isDigit b) : unsign (b :: bs) = (false, b :: bs) := by
  rw [unsign]
  · intro rest h'
    exact ne_of_class h rfl (List.cons.inj h').1
  · intro rest h'
    exact ne_of_class h rfl (List.cons.inj h').1

theorem scan_space {b : UInt8} {bs : Bytes} (h : isSpace b) : scan (b :: bs) = scan bs := by
  rw [scan, scan, List.dropWhile_cons_of_pos h]

theorem scan_decimal {n : Nat} {rest : Bytes} (h : ∀ b ∈ rest.head?, isDigit b = false) :
    scan (decimal n ++ rest) = some (false, n, rest) := by
  cases hd : decimal n with
  | nil => exact absurd hd (decimal_ne_nil n)
  | cons b bs =>
    have hb : isDigit b := isDigit_decimal (hd ▸ List.mem_cons_self : b ∈ decimal n)
    have hskip : (b :: (bs ++ rest)).dropWhile isSpace = b :: (bs ++ rest) :=
      List.dropWhile_cons_of_neg (by simp [isSpace_of_isDigit hb])
    have hall : ∀ x ∈ b :: bs, isDigit x := fun x hx => isDigit_decimal (hd ▸ hx : x ∈ decimal n)
    have hne : b :: bs ≠ [] := by simp
    simp only [scan, List.cons_append, hskip, unsign_digit hb]
    rw [← List.cons_append, takeWhile_run hall h, dropWhile_run hall h, if_neg hne, ← hd, value_decimal]

theorem scan_minus {n : Nat} {rest : Bytes} (h : ∀ b ∈ rest.head?, isDigit b = false) :
    scan (45 :: (decimal n ++ rest)) = some (true, n, rest) := by
  have hall : ∀ x ∈ decimal n, isDigit x := fun x hx => isDigit_decimal hx
  have hskip : (45 :: (decimal n ++ rest)).dropWhile isSpace = 45 :: (decimal n ++ rest) :=
    List.dropWhile_cons_of_neg (by decide)
  simp only [scan, hskip, unsign]
  rw [takeWhile_run hall h, dropWhile_run hall h, if_neg (decimal_ne_nil n), value_decimal]

/-- `std::stoull`: a minus negates in 64 bits, and what follows the digits is
left alone. -/
def stoull (bs : Bytes) : Option UInt64 := do
  let (negative, n, _) ← scan bs
  if n < 2 ^ 64 then some (if negative then -UInt64.ofNat n else UInt64.ofNat n) else none

theorem stoull_decimal (n : UInt64) : stoull (decimal n.toNat) = some n := by
  have h : scan (decimal n.toNat ++ []) = some (false, n.toNat, []) := scan_decimal (by simp)
  rw [List.append_nil] at h
  simp [stoull, h, n.toNat_lt]

/-! ## Streams -/

def printInt (i : Int) : Bytes := if i < 0 then 45 :: decimal i.natAbs else decimal i.natAbs

abbrev Fits (w : Nat) (i : Int) : Prop := -2 ^ (w - 1) ≤ i ∧ i < 2 ^ (w - 1)

/-- `stream >> i` for a signed integer of `w` bits. -/
def readInt (w : Nat) (bs : Bytes) : Option (Int × Bytes) := do
  let (negative, n, rest) ← scan bs
  let i : Int := if negative then -n else n
  if Fits w i then some (i, rest) else none

/-- `stream >> s` for a string. -/
def readWord (bs : Bytes) : Option (Bytes × Bytes) :=
  let word := (bs.dropWhile isSpace).takeWhile (!isSpace ·)
  if word = [] then none else some (word, (bs.dropWhile isSpace).dropWhile (!isSpace ·))

theorem scan_printInt {i : Int} {rest : Bytes} (h : ∀ b ∈ rest.head?, isDigit b = false) :
    scan (printInt i ++ rest) = some (decide (i < 0), i.natAbs, rest) := by
  rw [printInt]
  split
  · rename_i hi
    rw [List.cons_append, scan_minus h, decide_eq_true hi]
  · rename_i hi
    rw [scan_decimal h, decide_eq_false hi]

theorem readInt_printInt {w : Nat} {i : Int} {rest : Bytes} (h : ∀ b ∈ rest.head?, isDigit b = false)
    (hi : Fits w i) : readInt w (32 :: (printInt i ++ rest)) = some (i, rest) := by
  have hval : (if decide (i < 0) = true then -(i.natAbs : Int) else i.natAbs) = i := by
    by_cases hneg : i < 0
    · rw [if_pos (decide_eq_true hneg)]
      omega
    · rw [if_neg (by simpa using hneg)]
      omega
  simp only [readInt, scan_space (show isSpace 32 from rfl), scan_printInt h, Option.bind_eq_bind, Option.bind_some]
  rw [hval, if_pos hi]

theorem isDigit_or_minus_of_printInt {i : Int} {b : UInt8} (h : b ∈ printInt i) : isDigit b ∨ b = 45 := by
  rw [printInt] at h
  split at h
  · rcases List.mem_cons.mp h with h | h
    · exact Or.inr h
    · exact Or.inl (isDigit_decimal h)
  · exact Or.inl (isDigit_decimal h)

theorem readWord_space {b : UInt8} {bs : Bytes} (h : isSpace b) : readWord (b :: bs) = readWord bs := by
  rw [readWord, readWord, List.dropWhile_cons_of_pos h]

theorem readWord_word {word rest : Bytes} (hne : word ≠ []) (hw : ∀ b ∈ word, isSpace b = false)
    (hr : ∀ b ∈ rest.head?, isSpace b) : readWord (word ++ rest) = some (word, rest) := by
  have hskip : (word ++ rest).dropWhile isSpace = word ++ rest := by
    cases word with
    | nil => exact absurd rfl hne
    | cons b bs => exact List.dropWhile_cons_of_neg (by simp [hw b List.mem_cons_self])
  have hw' : ∀ b ∈ word, (!isSpace b) = true := fun b hb => by rw [hw b hb]; rfl
  have hr' : ∀ b ∈ rest.head?, (!isSpace b) = false := fun b hb => by rw [hr b hb]; rfl
  rw [readWord, hskip, takeWhile_run hw' hr', dropWhile_run hw' hr', if_neg hne]

/-! ## Lines and fields -/

/-- The lines `getline` gives: what follows the last newline is a line when it
is not empty. -/
def lines (bs : Bytes) : List Bytes :=
  let pieces := bs.splitOn newline
  if pieces.getLast? = some [] then pieces.dropLast else pieces

def unlines (ls : List Bytes) : Bytes := ls.flatMap (· ++ [newline])

theorem unlines_eq_intercalate : ∀ ls : List Bytes, unlines ls = [newline].intercalate (ls ++ [[]])
  | [] => rfl
  | [l] => by simp [unlines, List.intercalate]
  | l :: l' :: ls => by
    have hrest : unlines (l' :: ls) = [newline].intercalate (l' :: ls ++ [[]]) := unlines_eq_intercalate (l' :: ls)
    rw [unlines, List.flatMap_cons, ← unlines, hrest]
    simp [List.intercalate]

theorem lines_unlines {ls : List Bytes} (h : ∀ l ∈ ls, newline ∉ l) : lines (unlines ls) = ls := by
  have hclean : ∀ l ∈ ls ++ [[]], newline ∉ l := by
    intro l hl
    rcases List.mem_append.mp hl with hl | hl
    · exact h l hl
    · rw [List.mem_singleton.mp hl]
      exact List.not_mem_nil
  have hsplit : (unlines ls).splitOn newline = ls ++ [[]] := by
    rw [unlines_eq_intercalate]
    exact List.splitOn_intercalate newline hclean (by simp)
  rw [lines, hsplit]
  simp

theorem not_mem_intercalate {s b : UInt8} : ∀ {ls : List Bytes}, b ≠ s → (∀ l ∈ ls, b ∉ l) → b ∉ [s].intercalate ls
  | [], _, _ => by simp
  | [l], _, h => by simpa using h
  | l :: l' :: ls, hs, h => by
    rw [List.forall_mem_cons] at h
    simp [List.intercalate_cons_cons, h.1, hs, not_mem_intercalate hs h.2]

theorem not_mem_decimal {b : UInt8} (h : isDigit b = false) (n : Nat) : b ∉ decimal n := fun hb => by
  rw [isDigit_decimal hb] at h
  exact absurd h (by decide)

/-- The text before and after the first separator. -/
def cut (sep : UInt8) (bs : Bytes) : Option (Bytes × Bytes) :=
  match bs.dropWhile (· != sep) with
  | [] => none
  | _ :: rest => some (bs.takeWhile (· != sep), rest)

theorem cut_append {sep : UInt8} {k v : Bytes} (h : sep ∉ k) : cut sep (k ++ sep :: v) = some (k, v) := by
  have hk : ∀ b ∈ k, (b != sep) = true := fun b hb => bne_iff_ne.mpr fun he => h (he ▸ hb)
  have hr : ∀ b ∈ (sep :: v).head?, (b != sep) = false := by simp
  rw [cut, dropWhile_run hk hr, takeWhile_run hk hr]

theorem cut_fst {sep : UInt8} (k v : Bytes) :
    (cut sep (k ++ sep :: v)).map Prod.fst = some (k.takeWhile (· != sep)) := by
  by_cases hmem : sep ∈ k
  · obtain ⟨front, back, rfl, hfront⟩ := List.eq_append_cons_of_mem hmem
    have hk : ∀ b ∈ front, (b != sep) = true := fun b hb => bne_iff_ne.mpr fun he => hfront (he ▸ hb)
    rw [List.append_assoc, List.cons_append, cut_append hfront, takeWhile_run hk (by simp)]
    rfl
  · have hk : ∀ b ∈ k, (b != sep) = true := fun b hb => bne_iff_ne.mpr fun he => hmem (he ▸ hb)
    rw [cut_append hmem, List.takeWhile_eq_self_iff.mpr hk]
    rfl

/-- The text from the first occurrence of a pattern on. -/
def suffixFrom (pattern : Bytes) : Bytes → Option Bytes
  | [] => if pattern.isEmpty then some [] else none
  | b :: bs => if pattern.isPrefixOf (b :: bs) then some (b :: bs) else suffixFrom pattern bs

theorem suffixFrom_suffix {pattern : Bytes} : ∀ {bs found : Bytes}, suffixFrom pattern bs = some found → found <:+ bs
  | [], found, h => by
    rw [suffixFrom] at h
    split at h
    · exact Option.some.inj h ▸ List.suffix_rfl
    · cases h
  | b :: bs, found, h => by
    rw [suffixFrom] at h
    split at h
    · exact Option.some.inj h ▸ List.suffix_rfl
    · exact (suffixFrom_suffix h).trans (List.suffix_cons b bs)

theorem suffixFrom_starts {pattern : Bytes} : ∀ {bs found : Bytes}, suffixFrom pattern bs = some found → pattern <+: found
  | [], found, h => by
    rw [suffixFrom] at h
    split at h
    · rename_i hempty
      exact List.isEmpty_iff.mp hempty ▸ List.nil_prefix
    · cases h
  | b :: bs, found, h => by
    rw [suffixFrom] at h
    split at h
    · rename_i hhead
      exact Option.some.inj h ▸ List.isPrefixOf_iff_prefix.mp hhead
    · exact suffixFrom_starts h

/-- What the pattern does not start in is passed over. -/
theorem suffixFrom_skip {pattern : Bytes} : ∀ {passed rest : Bytes},
    (∀ found, found ≠ [] → found <:+ passed → ¬ pattern <+: found ++ rest) →
    suffixFrom pattern (passed ++ rest) = suffixFrom pattern rest
  | [], rest, _ => rfl
  | b :: passed, rest, h => by
    have hhere : ¬ pattern.isPrefixOf (b :: (passed ++ rest)) = true := by
      rw [List.isPrefixOf_iff_prefix]
      exact h (b :: passed) (List.cons_ne_nil b passed) List.suffix_rfl
    rw [List.cons_append, suffixFrom, if_neg hhere]
    exact suffixFrom_skip fun found hne hfound => h found hne (hfound.trans (List.suffix_cons b passed))

theorem suffixFrom_here {pattern bs : Bytes} (h : pattern <+: bs) : suffixFrom pattern bs = some bs := by
  cases bs with
  | nil => rw [suffixFrom, if_pos (List.isEmpty_iff.mpr (List.prefix_nil.mp h))]
  | cons b bs => exact if_pos ( List.isPrefixOf_iff_prefix.mpr h)

theorem suffixFrom_append {pattern back : Bytes} (h : pattern <+: back) : ∀ front : Bytes,
    ∃ middle, suffixFrom pattern (front ++ back) = some (middle ++ back)
  | [] => ⟨[], suffixFrom_here h⟩
  | b :: front => by
    by_cases hhere : pattern <+: b :: (front ++ back)
    · exact ⟨b :: front, suffixFrom_here hhere⟩
    · obtain ⟨middle, hmiddle⟩ := suffixFrom_append h front
      refine ⟨middle, ?_⟩
      rw [List.cons_append, suffixFrom, if_neg (by rwa [List.isPrefixOf_iff_prefix])]
      exact hmiddle

/-- The cut is at the separator or at an earlier one. -/
theorem cut_or {sep : UInt8} (k v : Bytes) : (∃ before, cut sep (k ++ sep :: v) = some (before, v)) ∨
    ∃ before other, cut sep (k ++ sep :: v) = some (before, other ++ sep :: v) := by
  by_cases hmem : sep ∈ k
  · obtain ⟨front, back, rfl, hfront⟩ := List.eq_append_cons_of_mem hmem
    refine Or.inr ⟨front, back, ?_⟩
    rw [List.append_assoc, List.cons_append, cut_append hfront]
  · exact Or.inl ⟨k, cut_append hmem⟩

theorem cut_suffix {sep : UInt8} {bs before rest : Bytes} (h : cut sep bs = some (before, rest)) : rest <:+ bs := by
  rw [cut] at h
  split at h
  · cases h
  · rename_i b tail hdrop
    rw [Option.some.injEq, Prod.mk.injEq] at h
    rw [← h.2]
    exact (List.suffix_cons b tail).trans (hdrop ▸ List.dropWhile_suffix _)

def quoted (key : String) : Bytes := 34 :: (ascii key ++ [34])

/-! ## Text between quotes

A flat text falls into pieces at its quotes. A key in quotes is found at the first
piece that is the key.
-/

/-- Each piece after a quote. -/
def afterQuotes (pieces : List Bytes) : Bytes := pieces.flatMap (34 :: ·)

theorem afterQuotes_cons (piece : Bytes) (pieces : List Bytes) :
    afterQuotes (piece :: pieces) = 34 :: (piece ++ afterQuotes pieces) := rfl

theorem eq_of_quoted {key piece : Bytes} {pieces : List Bytes} (hkey : 34 ∉ key) (hpiece : 34 ∉ piece)
    (h : 34 :: (key ++ [34]) <+: afterQuotes (piece :: pieces)) : piece = key := by
  rw [afterQuotes_cons, List.cons_prefix_cons] at h
  obtain ⟨tail, htail⟩ := h.2
  rw [List.append_assoc, List.singleton_append] at htail
  cases pieces with
  | nil =>
    rw [show afterQuotes [] = [] from rfl, List.append_nil] at htail
    exact absurd (htail ▸ List.mem_append_right key List.mem_cons_self) hpiece
  | cons next rest =>
    have hcut := cut_append (v := tail) hkey
    rw [htail, afterQuotes_cons, cut_append hpiece, Option.some.injEq, Prod.mk.injEq] at hcut
    exact hcut.1

theorem suffixFrom_cons {pattern bs : Bytes} {b : UInt8} (h : ¬ pattern <+: b :: bs) :
    suffixFrom pattern (b :: bs) = suffixFrom pattern bs := by
  rw [← List.isPrefixOf_iff_prefix] at h
  rw [suffixFrom, if_neg h]

theorem suffixFrom_unquoted {first : Bytes} (hfirst : 34 ∉ first) (pattern rest : Bytes) :
    suffixFrom (34 :: pattern) (first ++ rest) = suffixFrom (34 :: pattern) rest := by
  induction first with
  | nil => rfl
  | cons b first ih =>
    rw [List.mem_cons, not_or] at hfirst
    rw [List.cons_append, suffixFrom_cons, ih hfirst.2]
    rw [List.cons_prefix_cons]
    exact fun h => hfirst.1 h.1

theorem suffixFrom_quoted {key : Bytes} (hkey : 34 ∉ key) {pre post : List Bytes} {first : Bytes} (hfirst : 34 ∉ first)
    (hpre : ∀ piece ∈ pre, 34 ∉ piece ∧ piece ≠ key) (hpost : post ≠ []) :
    suffixFrom (34 :: (key ++ [34])) (first ++ afterQuotes (pre ++ key :: post)) = some (afterQuotes (key :: post)) := by
  induction pre generalizing first with
  | nil =>
    rw [suffixFrom_unquoted hfirst, List.nil_append, suffixFrom_here]
    cases post with
    | nil => exact absurd rfl hpost
    | cons next rest =>
      rw [afterQuotes_cons, afterQuotes_cons, List.cons_prefix_cons]
      exact ⟨rfl, next ++ afterQuotes rest, by simp⟩
  | cons piece pre ih =>
    rw [List.forall_mem_cons] at hpre
    rw [suffixFrom_unquoted hfirst, List.cons_append, afterQuotes_cons, suffixFrom_cons, ih hpre.1.1 hpre.2]
    rw [← afterQuotes_cons]
    exact fun h => hpre.1.2 (eq_of_quoted hkey hpre.1.1 h)

/-! ## Strings that are not split -/

/-- No character from `i` on is the first one of `sep`; `fuel` is more than the characters left. -/
def lacks (s sep : String) : Nat → String.Pos.Raw → Bool
  | 0, _ => false
  | fuel + 1, i => i.atEnd s || (i.get s != String.Pos.Raw.get sep 0 && lacks s sep fuel (i.next s))

theorem splitOnAux_of_lacks {s sep : String} (start : String.Pos.Raw) (parts : List String) :
    ∀ {fuel : Nat} {i : String.Pos.Raw}, lacks s sep fuel i = true →
      (s.splitOnAux sep start i 0 parts).length = parts.length + 1
  | fuel + 1, i, h => by
    have hback : i.unoffsetBy 0 = i := by
      cases i
      rfl
    rw [lacks, Bool.or_eq_true, Bool.and_eq_true, bne_iff_ne] at h
    rw [String.splitOnAux]
    by_cases hend : i.atEnd s = true
    · simp [hend]
    · obtain ⟨hne, hrest⟩ := h.resolve_left hend
      rw [if_neg hend, if_neg (by simpa using hne), hback]
      exact splitOnAux_of_lacks start parts hrest

theorem splitOn_of_lacks {s sep : String} (hne : sep ≠ "") {fuel : Nat} (h : lacks s sep fuel 0 = true) :
    (s.splitOn sep).length = 1 := by
  rw [String.splitOn, if_neg (by simpa using hne)]
  exact splitOnAux_of_lacks 0 [] h

end Text
