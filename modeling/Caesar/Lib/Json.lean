import Caesar.Lib.Text
import Mathlib

/-!
# JSON as it is written

Numbers and strings in all their spellings, and texts as sequences of lexemes.
A search for a quoted key finds the key of a member unless a string before it
ends like the key: a quote inside a string is escaped, and what follows a string
starts no key.
-/

namespace Json

open Codec (Bytes)
open Text

def isBlank (b : UInt8) : Bool := b = 32 || b = 9 || b = 10 || b = 13

theorem isBlank_rec {p : UInt8 → Prop} (h32 : p 32) (h9 : p 9) (h10 : p 10) (h13 : p 13) {b : UInt8} (h : isBlank b) :
    p b := by
  simp only [isBlank, Bool.or_eq_true, decide_eq_true_eq] at h
  rcases h with ((rfl | rfl) | rfl) | rfl
  · exact h32
  · exact h9
  · exact h10
  · exact h13

abbrev Blanks := { bs : Bytes // ∀ b ∈ bs, isBlank b }

/-! ## Numbers -/

structure Digits where
  text : Bytes
  all : ∀ b ∈ text, isDigit b
  ne_nil : text ≠ []

structure Exponent where
  upper : Bool
  /-- A written sign; `true` is the minus. -/
  sign : Option Bool
  digits : Digits

structure Number where
  negative : Bool
  whole : Nat
  fraction : Option Digits
  exponent : Option Exponent

def signText : Option Bool → Bytes
  | none => []
  | some false => [43]
  | some true => [45]

def Exponent.text (e : Exponent) : Bytes := (if e.upper then 69 else 101) :: (signText e.sign ++ e.digits.text)

def Exponent.value (e : Exponent) : Int :=
  if e.sign = some true then -(Text.value e.digits.text : Int) else Text.value e.digits.text

namespace Number

/-- The fraction and the exponent. -/
def tail (n : Number) : Bytes :=
  (n.fraction.map fun ds => 46 :: ds.text).getD [] ++ (n.exponent.map Exponent.text).getD []

def minus (n : Number) : Bytes := if n.negative then [45] else []

def text (n : Number) : Bytes := n.minus ++ (decimal n.whole ++ n.tail)

def value (n : Number) : ℚ :=
  (if n.negative then -1 else 1) *
    (n.whole + (n.fraction.map fun ds => (Text.value ds.text : ℚ) / 10 ^ ds.text.length).getD 0) *
    10 ^ (n.exponent.map Exponent.value).getD 0

/-- Written with neither a sign, a fraction nor an exponent. -/
structure Plain (n : Number) : Prop where
  positive : n.negative = false
  integral : n.fraction = none
  unscaled : n.exponent = none

variable {n : Number}

theorem Plain.value_eq (h : n.Plain) : n.value = n.whole := by
  simp [value, h.positive, h.integral, h.unscaled]

def isNumeric (b : UInt8) : Bool := isDigit b || b = 43 || b = 45 || b = 46 || b = 69 || b = 101

theorem isNumeric_of_isDigit {b : UInt8} (h : isDigit b) : isNumeric b := by simp [isNumeric, h]

theorem isNumeric_exponent {e : Exponent} {b : UInt8} (h : b ∈ e.text) : isNumeric b := by
  rw [Exponent.text, List.mem_cons, List.mem_append] at h
  rcases h with rfl | h | h
  · split <;> rfl
  · rcases hs : e.sign with _ | _ | _ <;> simp [signText, hs] at h <;> simp [h, isNumeric]
  · exact isNumeric_of_isDigit (e.digits.all b h)

theorem isNumeric_tail {b : UInt8} (h : b ∈ n.tail) : isNumeric b := by
  rcases List.mem_append.mp h with h | h
  · rcases hf : n.fraction with _ | ds
    · simp [hf] at h
    · simp only [hf, Option.map_some, Option.getD_some, List.mem_cons] at h
      rcases h with rfl | h
      · rfl
      · exact isNumeric_of_isDigit (ds.all b h)
  · rcases he : n.exponent with _ | e
    · simp [he] at h
    · simp only [he, Option.map_some, Option.getD_some] at h
      exact isNumeric_exponent h

theorem head_tail : ∀ b ∈ n.tail.head?, isDigit b = false := by
  intro b hb
  rcases hf : n.fraction with _ | ds
  · rcases he : n.exponent with _ | e
    · simp [tail, hf, he] at hb
    · simp only [tail, hf, he, Option.map_none, Option.map_some, Option.getD_none, Option.getD_some, List.nil_append,
        Exponent.text, List.head?_cons, Option.mem_some_iff] at hb
      rw [← hb]
      split <;> rfl
  · simp only [tail, hf, Option.map_some, Option.getD_some, List.cons_append, List.head?_cons, Option.mem_some_iff] at hb
    rw [← hb]
    rfl

theorem isNumeric_minus {b : UInt8} (h : b ∈ n.minus) : b = 45 := by
  rw [minus] at h
  split at h
  · exact List.mem_singleton.mp h
  · cases h

theorem isNumeric_text {b : UInt8} (h : b ∈ n.text) : isNumeric b := by
  rw [text, List.mem_append, List.mem_append] at h
  rcases h with h | h | h
  · rw [isNumeric_minus h]
    rfl
  · exact isNumeric_of_isDigit (isDigit_decimal h)
  · exact isNumeric_tail h

end Number

/-! ## Strings -/

def isHex (b : UInt8) : Bool := isDigit b || (65 ≤ b && b ≤ 70) || (97 ≤ b && b ≤ 102)

/-- What a string is made of: bytes that stand for themselves, and escapes. -/
inductive Piece where
  | plain (b : UInt8) (h : 32 ≤ b ∧ b ≠ 34 ∧ b ≠ 92)
  | escape (b : UInt8) (h : b ∈ [34, 92, 47, 98, 102, 110, 114, 116])
  | unicode (digits : Bytes) (h : digits.length = 4 ∧ ∀ b ∈ digits, isHex b)

def Piece.text : Piece → Bytes
  | plain b _ => [b]
  | escape b _ => [92, b]
  | unicode digits _ => 92 :: 117 :: digits

structure Str where
  pieces : List Piece

def Str.text (s : Str) : Bytes := s.pieces.flatMap Piece.text

/-- Every quote follows a backslash. -/
def Escaped (bs : Bytes) : Prop := ∀ front back, bs = front ++ 34 :: back → front.getLast? = some 92

theorem escaped_of_notMem {bs : Bytes} (h : 34 ∉ bs) : Escaped bs := by
  rintro front back rfl
  exact absurd (List.mem_append_right front List.mem_cons_self) h

theorem Escaped.append {bs cs : Bytes} (hbs : Escaped bs) (hcs : Escaped cs) : Escaped (bs ++ cs) := by
  intro front back h
  rcases List.append_eq_append_iff.mp h with ⟨middle, hfront, hback⟩ | ⟨middle, hfront, hback⟩
  · have hlast := hcs middle back hback
    rw [hfront, List.getLast?_append, hlast]
    rfl
  · cases middle with
    | nil =>
      -- The quote would be the first byte of the second part, which nothing escapes.
      exact absurd (hcs [] back (by simpa using hback.symm)) (by simp)
    | cons b middle =>
      rw [List.cons_append, List.cons.injEq] at hback
      exact hbs front middle (by rw [hfront, hback.1])

theorem Piece.escaped (p : Piece) : Escaped p.text := by
  cases p with
  | plain b h => exact escaped_of_notMem (by simpa [text] using Ne.symm h.2.1)
  | escape b h =>
    rintro front back hsplit
    cases front with
    | nil => exact absurd (List.cons.inj hsplit).1 (by decide)
    | cons c front =>
      rw [text, List.cons_append, List.cons.injEq] at hsplit
      cases front with
      | nil => rw [← hsplit.1, List.getLast?_singleton]
      | cons d front => simp at hsplit
  | unicode digits h =>
    refine escaped_of_notMem ?_
    simp only [text, List.mem_cons, not_or]
    exact ⟨by decide, by decide, fun hmem => ne_of_class (h.2 34 hmem) rfl rfl⟩

theorem Str.escaped (s : Str) : Escaped s.text := by
  rw [Str.text]
  induction s.pieces with
  | nil => exact escaped_of_notMem (by simp)
  | cons p ps ih =>
    rw [List.flatMap_cons]
    exact p.escaped.append ih

/-! ## Lexemes -/

inductive Lexeme where
  | blank (b : UInt8) (h : isBlank b)
  | mark (b : UInt8) (h : b ∈ [123, 125, 91, 93, 58, 44])
  | word (w : Bytes) (h : w ∈ [ascii "null", ascii "true", ascii "false"])
  | number (n : Number)
  | string (s : Str)

def Lexeme.text : Lexeme → Bytes
  | blank b _ => [b]
  | mark b _ => [b]
  | word w _ => w
  | number n => n.text
  | string s => 34 :: (s.text ++ [34])

def text (ls : List Lexeme) : Bytes := ls.flatMap Lexeme.text

def starts (b : UInt8) : Bool :=
  isBlank b || b ∈ [123, 125, 91, 93, 58, 44] || b ∈ [110, 116, 102] || isDigit b || b = 45 || b = 34

/-- A name that can be looked for between quotes: no lexeme starts like it, and it needs no escape. -/
structure IsKey (key : Bytes) : Prop where
  ne_nil : key ≠ []
  head : ∀ b ∈ key.head?, starts b = false
  quote : 34 ∉ key
  backslash : 92 ∉ key
  colon : 58 ∉ key

theorem Number.head_text (n : Number) : ∃ b rest, n.text = b :: rest ∧ starts b := by
  rw [Number.text, Number.minus]
  split
  · exact ⟨45, _, rfl, rfl⟩
  · cases hd : decimal n.whole with
    | nil => exact absurd hd (decimal_ne_nil _)
    | cons b bs =>
      have hb : isDigit b := isDigit_decimal (hd ▸ List.mem_cons_self : b ∈ decimal n.whole)
      exact ⟨b, bs ++ n.tail, rfl, by simp [starts, hb]⟩

theorem Lexeme.head_text (l : Lexeme) : ∃ b rest, l.text = b :: rest ∧ starts b := by
  cases l with
  | blank b h => exact ⟨b, [], rfl, by simp [starts, h]⟩
  | mark b h => exact ⟨b, [], rfl, by simp only [starts, h, decide_true, Bool.or_true, Bool.true_or]⟩
  | word w h =>
    simp only [List.mem_cons, List.not_mem_nil, or_false] at h
    rcases h with rfl | rfl | rfl
    · exact ⟨110, _, rfl, rfl⟩
    · exact ⟨116, _, rfl, rfl⟩
    · exact ⟨102, _, rfl, rfl⟩
  | number n => exact n.head_text
  | string s => exact ⟨34, _, rfl, rfl⟩

theorem head_text_append (ls : List Lexeme) (rest : Bytes) :
    ∃ b bs, text ls ++ 34 :: rest = b :: bs ∧ starts b := by
  cases ls with
  | nil => exact ⟨34, rest, rfl, rfl⟩
  | cons l ls =>
    obtain ⟨b, bs, hl, hb⟩ := l.head_text
    exact ⟨b, bs ++ text ls ++ 34 :: rest, by simp [text, hl], hb⟩

theorem Lexeme.quote_notMem {l : Lexeme} (h : ∀ s, l ≠ string s) : 34 ∉ l.text := by
  cases l with
  | blank b hb =>
    rw [text, List.mem_singleton]
    exact (ne_of_class hb rfl).symm
  | mark b hb =>
    rw [text, List.mem_singleton]
    intro hquote
    exact absurd (hquote ▸ hb) (by decide)
  | word w hw =>
    simp only [List.mem_cons, List.not_mem_nil, or_false] at hw
    rw [text]
    rcases hw with rfl | rfl | rfl <;> decide
  | number n => exact fun hmem => ne_of_class (Number.isNumeric_text hmem) rfl rfl
  | string s => exact absurd rfl (h s)

/-! ## Searching a quoted key -/

theorem key_not_in_other {key : Bytes} {l : Lexeme} (hl : ∀ s, l ≠ .string s) (rest : Bytes) :
    ∀ found, found ≠ [] → found <:+ l.text → ¬ 34 :: (key ++ [34]) <+: found ++ rest := by
  rintro (_ | ⟨b, found⟩) hne hfound h
  · exact hne rfl
  · rw [List.cons_append, List.cons_prefix_cons] at h
    exact Lexeme.quote_notMem hl (h.1 ▸ hfound.subset List.mem_cons_self)

section
variable {key : Bytes} (hkey : IsKey key)
include hkey

/-- A quoted key does not end inside of a string: its second quote would follow a backslash. -/
theorem key_of_suffix {s : Str} {inner rest : Bytes} (hinner : inner <:+ s.text)
    (h : key ++ [34] <+: inner ++ 34 :: rest) : inner = key := by
  obtain ⟨more, hmore⟩ := h
  rw [List.append_assoc, List.singleton_append] at hmore
  have hcut : cut 34 (inner ++ 34 :: rest) = some (key, more) := by
    rw [← hmore]
    exact cut_append hkey.quote
  by_cases hmem : 34 ∈ inner
  · obtain ⟨front, back, rfl, hfront⟩ := List.eq_append_cons_of_mem hmem
    rw [List.append_assoc, List.cons_append, cut_append hfront, Option.some.injEq, Prod.mk.injEq] at hcut
    obtain ⟨before, hbefore⟩ := hinner
    rw [← List.append_assoc] at hbefore
    have hlast := s.escaped _ _ hbefore.symm
    rw [hcut.1, List.getLast?_append_of_ne_nil _ hkey.ne_nil] at hlast
    exact absurd (List.mem_of_getLast? hlast) hkey.backslash
  · rw [cut_append hmem, Option.some.injEq, Prod.mk.injEq] at hcut
    exact hcut.1

theorem key_not_after {b : UInt8} {bs : Bytes} (hb : starts b) : ¬ key ++ [34] <+: b :: bs := by
  cases hk : key with
  | nil => exact absurd hk hkey.ne_nil
  | cons k key =>
    intro h
    rw [List.cons_append, List.cons_prefix_cons] at h
    have hfalse := hkey.head k (by rw [hk]; rfl)
    rw [h.1, hb] at hfalse
    cases hfalse

/-- The places of a string at which a quoted key could start are its two quotes and the escaped ones in it. -/
theorem key_not_in_string {s : Str} {b : UInt8} {bs : Bytes} (hb : starts b) (hs : ¬ 34 :: key <:+ 34 :: s.text) :
    ∀ found, found ≠ [] → found <:+ (Lexeme.string s).text → ¬ 34 :: (key ++ [34]) <+: found ++ b :: bs := by
  intro found hne hfound h
  rw [Lexeme.text, ← List.cons_append, List.suffix_concat_iff] at hfound
  obtain rfl | ⟨start, rfl, hstart⟩ := hfound
  · exact hne rfl
  · cases start with
    | nil =>
      rw [List.nil_append, List.singleton_append, List.cons_prefix_cons] at h
      exact key_not_after hkey hb h.2
    | cons c inner =>
      rw [List.cons_append, List.cons_append, List.cons_prefix_cons, List.append_assoc, List.singleton_append] at h
      obtain ⟨rfl, h⟩ := h
      have hinner : inner <:+ s.text := by
        rcases List.suffix_cons_iff.mp hstart with heq | hsuffix
        · rw [(List.cons.inj heq).2]
        · exact (List.suffix_cons 34 inner).trans hsuffix
      rw [key_of_suffix hkey hinner h] at hstart
      exact hs hstart

theorem suffixFrom_key : ∀ {ls : List Lexeme}, (∀ s, Lexeme.string s ∈ ls → ¬ 34 :: key <:+ 34 :: s.text) →
    ∀ rest, suffixFrom (34 :: (key ++ [34])) (text ls ++ 34 :: rest) =
      suffixFrom (34 :: (key ++ [34])) (34 :: rest)
  | [], _, rest => rfl
  | l :: ls, h, rest => by
    have hls : ∀ s, Lexeme.string s ∈ ls → ¬ 34 :: key <:+ 34 :: s.text := fun s hs => h s (List.mem_cons_of_mem l hs)
    rw [← suffixFrom_key hls rest, text, List.flatMap_cons, List.append_assoc]
    refine suffixFrom_skip ?_
    obtain ⟨b, bs, htext, hb⟩ := head_text_append ls rest
    rw [← text, htext]
    by_cases hl : ∃ s, l = .string s
    · obtain ⟨s, rfl⟩ := hl
      exact key_not_in_string hkey hb (h s List.mem_cons_self)
    · exact key_not_in_other (not_exists.mp hl) (b :: bs)

end

/-! ## A member of an object -/

/-- The values that denote a number, written as one or in quotes. -/
inductive Scalar where
  | number (n : Number)
  | string (s : Str)

namespace Scalar

def text : Scalar → Bytes
  | number n => n.text
  | string s => 34 :: (s.text ++ [34])

def Spells : Scalar → Number → Prop
  | number m, n => m = n
  | string s, n => s.text = n.text

def Plain (v : Scalar) : Prop := ∃ n, v.Spells n ∧ n.Plain

/-- The number is `a`, and it is written as an unsigned integer. -/
def Exact (v : Scalar) (a : Nat) : Prop := ∃ n, v.Spells n ∧ n.Plain ∧ n.value = a

end Scalar

/-- A text in which one member of an object is singled out. What stands before and after it is any sequence of lexemes,
those of an object among them. -/
structure Member (key : String) where
  before : List Lexeme
  beforeColon : Blanks
  afterColon : Blanks
  value : Scalar
  afterValue : Blanks
  last : Bool
  after : List Lexeme

namespace Member

variable {key : String}

/-- From the colon on. -/
def valueText (m : Member key) : Bytes :=
  m.afterColon.1 ++ (m.value.text ++ (m.afterValue.1 ++ (if m.last then 125 else 44) :: Json.text m.after))

def text (m : Member key) : Bytes := Json.text m.before ++ (quoted key ++ (m.beforeColon.1 ++ 58 :: m.valueText))

/-- No string before the key is the key or ends with an escaped quote and the key. -/
def KeyFirst (m : Member key) : Prop := ∀ s, Lexeme.string s ∈ m.before → ¬ 34 :: ascii key <:+ 34 :: s.text

/-- The first colon after the first place of the quoted key is followed by `rest`. -/
def ReachedAt (m : Member key) (rest : Bytes) : Prop :=
  ∃ before, (suffixFrom (quoted key) m.text).bind (cut 58) = some (before, rest)

/-- That colon is the member's own. -/
def Reached (m : Member key) : Prop := m.ReachedAt m.valueText

theorem reached_or (m : Member key) : m.Reached ∨ ∃ other, m.ReachedAt (other ++ 58 :: m.valueText) := by
  obtain ⟨middle, hfound⟩ := suffixFrom_append ( List.prefix_append (quoted key) (m.beforeColon.1 ++ 58 :: m.valueText))
    (Json.text m.before)
  rw [← text, ← List.append_assoc (quoted key), ← List.append_assoc middle] at hfound
  rcases cut_or (middle ++ (quoted key ++ m.beforeColon.1)) m.valueText with ⟨before, hcut⟩ | ⟨before, other, hcut⟩
  · exact Or.inl ⟨before, by rw [hfound, Option.bind_some, hcut]⟩
  · exact Or.inr ⟨other, before, by rw [hfound, Option.bind_some, hcut]⟩

theorem found {m : Member key} (hkey : IsKey (ascii key)) (h : m.KeyFirst) :
    (suffixFrom (quoted key) m.text).bind (cut 58) = some (quoted key ++ m.beforeColon.1, m.valueText) := by
  have hcolon : 58 ∉ quoted key ++ m.beforeColon.1 := by
    rw [quoted, List.mem_append, List.mem_cons, List.mem_append, List.mem_singleton]
    rintro ((hmem | hmem | hmem) | hmem)
    · exact absurd hmem (by decide)
    · exact hkey.colon hmem
    · exact absurd hmem (by decide)
    · exact absurd (m.beforeColon.2 58 hmem) (by decide)
  have hfound : suffixFrom (quoted key) m.text = some (quoted key ++ (m.beforeColon.1 ++ 58 :: m.valueText)) := by
    rw [text, quoted, List.cons_append, suffixFrom_key hkey h]
    exact suffixFrom_here ( List.prefix_append _ _)
  rw [hfound, Option.bind_some, ← List.append_assoc]
  exact cut_append hcolon

theorem KeyFirst.reached {m : Member key} (h : m.KeyFirst) (hkey : IsKey (ascii key)) : m.Reached :=
  ⟨_, found hkey h⟩

end Member

end Json
