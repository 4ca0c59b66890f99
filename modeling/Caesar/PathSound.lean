import Caesar.HdWallet
import Caesar.FormatSound

/-!
# What `parse_path` accepts

The scanner accepts the grammar of derivation paths (`parsePath_ok_iff`), but it
multiplies in 32 bits before it compares: a number is read modulo `2 ^ 32`, and
one of `2 ^ 32` or more can pass for a small one.
-/

namespace Caesar.Slip10

open Codec (Bytes)

/-! ## The grammar -/

structure PathComponent where
  digits : Bytes
  mark : Option UInt8
  digits_ne_nil : digits ≠ []
  all_digits : ∀ c ∈ digits, Text.isDigit c
  all_marks : ∀ c ∈ mark, isMark c

namespace PathComponent

def text (p : PathComponent) : Bytes := 47 :: (p.digits ++ p.mark.toList)

def number (p : PathComponent) : Nat := Text.value p.digits

/-- The number with the top bit set for a marked component. -/
def index (p : PathComponent) : UInt32 :=
  if p.mark.isSome then UInt32.ofNat p.number ||| hardenedBit else UInt32.ofNat p.number

end PathComponent

def pathText (components : List PathComponent) : Bytes := 109 :: components.flatMap PathComponent.text

/-! ## The digits of one index -/

/-- The digits as the inner loop takes them, with the comparison after each. -/
def accumulate (idx : UInt32) : Bytes → Option UInt32
  | [] => some idx
  | c :: rest =>
    let idx := idx * 10 + (c - 48).toUInt32
    if idx ≥ 0x80000000 then none else accumulate idx rest

theorem accumulate_cons {idx r : UInt32} {c : UInt8} {rest : Bytes} :
    accumulate idx (c :: rest) = some r ↔
      ¬ idx * 10 + (c - 48).toUInt32 ≥ 0x80000000 ∧ accumulate (idx * 10 + (c - 48).toUInt32) rest = some r := by
  rw [accumulate]
  simp

def decimalStep (v : Nat) (c : UInt8) : Nat := 10 * v + (c.toNat - 48)

theorem isDigit_iff {c : UInt8} : Text.isDigit c = true ↔ 48 ≤ c.toNat ∧ c.toNat ≤ 57 := by
  simp [Text.isDigit, UInt8.le_iff_toNat_le]

theorem accumulate_step {idx : UInt32} {c : UInt8} (hc : Text.isDigit c) :
    (idx * 10 + (c - 48).toUInt32).toNat = decimalStep idx.toNat c % 2 ^ 32 := by
  obtain ⟨hlo, hhi⟩ := isDigit_iff.mp hc
  have hsub : (c - 48).toNat = c.toNat - 48 := by
    rw [UInt8.toNat_sub_of_le]
    · rfl
    · rw [UInt8.le_iff_toNat_le]
      exact hlo
  rw [UInt32.toNat_add, UInt32.toNat_mul, UInt8.toNat_toUInt32, hsub, decimalStep]
  simp only [UInt32.reduceToNat]
  omega

theorem foldl_decimalStep_mod (ds : Bytes) (a b : Nat) (h : a % 2 ^ 32 = b % 2 ^ 32) :
    ds.foldl decimalStep a % 2 ^ 32 = ds.foldl decimalStep b % 2 ^ 32 := by
  induction ds generalizing a b with
  | nil => exact h
  | cons c ds ih =>
    apply ih
    simp only [decimalStep]
    omega

theorem le_foldl_decimalStep (ds : Bytes) (a : Nat) : a ≤ ds.foldl decimalStep a := by
  induction ds generalizing a with
  | nil => simp
  | cons c ds ih =>
    have h := ih (decimalStep a c)
    simp only [List.foldl_cons]
    simp only [decimalStep] at h ⊢
    omega

theorem accumulate_toNat {ds : Bytes} {idx r : UInt32} (hd : ∀ c ∈ ds, Text.isDigit c)
    (h : accumulate idx ds = some r) : r.toNat = ds.foldl decimalStep idx.toNat % 2 ^ 32 := by
  induction ds generalizing idx with
  | nil =>
    obtain rfl : idx = r := by simpa [accumulate] using h
    exact (Nat.mod_eq_of_lt idx.toNat_lt).symm
  | cons c ds ih =>
    rw [List.forall_mem_cons] at hd
    have hrest := ih hd.2 (accumulate_cons.mp h).2
    rw [hrest, accumulate_step hd.1]
    apply foldl_decimalStep_mod
    rw [Nat.mod_mod]

theorem accumulate_lt {ds : Bytes} {idx r : UInt32} (hidx : idx.toNat < 2 ^ 31) (h : accumulate idx ds = some r) :
    r.toNat < 2 ^ 31 := by
  induction ds generalizing idx with
  | nil =>
    obtain rfl : idx = r := by simpa [accumulate] using h
    exact hidx
  | cons c ds ih =>
    obtain ⟨hlt, hrest⟩ := accumulate_cons.mp h
    refine ih ?_ hrest
    rw [ge_iff_le, UInt32.le_iff_toNat_le] at hlt
    simpa using hlt

/-- All digits are taken if no beginning of them reads as `2 ^ 31` or more in 32 bits. -/
theorem accumulate_iff {ds : Bytes} {idx : UInt32} (hd : ∀ c ∈ ds, Text.isDigit c) (hidx : idx.toNat < 2 ^ 31) :
    (∃ r, accumulate idx ds = some r) ↔ ∀ front, front <+: ds → front.foldl decimalStep idx.toNat % 2 ^ 32 < 2 ^ 31 := by
  induction ds generalizing idx with
  | nil =>
    refine iff_of_true ⟨idx, rfl⟩ fun front h => ?_
    rw [List.prefix_nil.mp h, List.foldl_nil]
    omega
  | cons c ds ih =>
    rw [List.forall_mem_cons] at hd
    have hstep : (idx * 10 + (c - 48).toUInt32).toNat = _ := accumulate_step hd.1
    have hfold : ∀ front : Bytes, (c :: front).foldl decimalStep idx.toNat % 2 ^ 32 =
        front.foldl decimalStep (idx * 10 + (c - 48).toUInt32).toNat % 2 ^ 32 := by
      intro front
      rw [List.foldl_cons]
      apply foldl_decimalStep_mod
      rw [hstep, Nat.mod_mod]
    constructor
    · rintro ⟨r, hr⟩ front hfront
      obtain ⟨hlt, hrest⟩ := accumulate_cons.mp hr
      rw [ge_iff_le, UInt32.le_iff_toNat_le, Nat.not_le] at hlt
      rcases List.prefix_cons_iff.mp hfront with rfl | ⟨rest, rfl, htail⟩
      · rw [List.foldl_nil]
        omega
      · rw [hfold]
        exact (ih hd.2 hlt).mp ⟨r, hrest⟩ rest htail
    · intro hall
      have hlt : (idx * 10 + (c - 48).toUInt32).toNat < 2 ^ 31 := by
        have hfirst := hall [c] (by simp)
        rwa [hfold, List.foldl_nil, Nat.mod_eq_of_lt (UInt32.toNat_lt _)] at hfirst
      obtain ⟨r, hr⟩ := (ih hd.2 hlt).mpr fun front hfront => by
        rw [← hfold]
        exact hall (c :: front) (List.cons_prefix_cons.mpr ⟨rfl, hfront⟩)
      refine ⟨r, accumulate_cons.mpr ⟨?_, hr⟩⟩
      rw [ge_iff_le, UInt32.le_iff_toNat_le, Nat.not_le]
      exact hlt

/-! ## One component -/

theorem scanComponent_digits {ds : Bytes} (hd : ∀ c ∈ ds, Text.isDigit c) {idx r : UInt32}
    (h : accumulate idx ds = some r) (hasDigit : Bool) (tail : Bytes) :
    scanComponent idx hasDigit (ds ++ tail) = scanComponent r (hasDigit || !ds.isEmpty) tail := by
  induction ds generalizing idx hasDigit with
  | nil =>
    obtain rfl : idx = r := by simpa [accumulate] using h
    simp
  | cons c ds ih =>
    rw [List.forall_mem_cons] at hd
    obtain ⟨hlt, hrest⟩ := accumulate_cons.mp h
    have hslash : c ≠ 47 := Text.ne_of_class hd.1 rfl
    have hmark : isMark c = false := by
      simp only [isMark, Bool.or_eq_false_iff, decide_eq_false_iff_not]
      exact ⟨⟨Text.ne_of_class hd.1 rfl, Text.ne_of_class hd.1 rfl⟩, Text.ne_of_class hd.1 rfl⟩
    have hrange : ¬ (c < 48 ∨ c > 57) := by
      have := isDigit_iff.mp hd.1
      simp only [gt_iff_lt, UInt8.lt_iff_toNat_lt, UInt8.reduceToNat]
      omega
    rw [List.cons_append, scanComponent, if_neg hslash, hmark, if_neg (by simp), if_neg hrange, if_neg hlt,
      ih hd.2 hrest]
    simp

theorem scanComponent_end (idx : UInt32) (hasDigit : Bool) {mark : Option UInt8} (hm : ∀ c ∈ mark, isMark c)
    {rest : Bytes} (hr : ∀ c ∈ rest.head?, c = 47) :
    scanComponent idx hasDigit (mark.toList ++ rest) = .ok ⟨idx, hasDigit, mark.isSome, rest⟩ := by
  cases mark with
  | none =>
    cases rest with
    | nil => rfl
    | cons c rest =>
      obtain rfl : c = 47 := hr c rfl
      simp [scanComponent]
  | some m =>
    have hmark : isMark m = true := hm m rfl
    have hslash : m ≠ 47 := Text.ne_of_class hmark rfl
    simp [scanComponent, hslash, hmark]

theorem scanComponent_ok {s : Bytes} {idx : UInt32} {hasDigit : Bool} {component : Component}
    (h : scanComponent idx hasDigit s = .ok component) :
    ∃ (ds : Bytes) (mark : Option UInt8), (∀ c ∈ ds, Text.isDigit c) ∧ (∀ c ∈ mark, isMark c) ∧
      s = ds ++ mark.toList ++ component.rest ∧ accumulate idx ds = some component.idx ∧
      component.hasDigit = (hasDigit || !ds.isEmpty) ∧ component.hasHardened = mark.isSome := by
  induction s generalizing idx hasDigit with
  | nil =>
    obtain rfl := Except.ok.inj h
    exact ⟨[], none, by simp, by simp, rfl, rfl, by simp, rfl⟩
  | cons c rest ih =>
    rw [scanComponent] at h
    by_cases hslash : c = 47
    · rw [if_pos hslash] at h
      obtain rfl := Except.ok.inj h
      exact ⟨[], none, by simp, by simp, rfl, rfl, by simp, rfl⟩
    by_cases hmark : isMark c = true
    · rw [if_neg hslash, if_pos hmark] at h
      obtain rfl := Except.ok.inj h
      exact ⟨[], some c, by simp, by simpa using hmark, rfl, rfl, by simp, rfl⟩
    rw [if_neg hslash, if_neg hmark] at h
    by_cases hrange : c < 48 ∨ c > 57
    · rw [if_pos hrange] at h
      cases h
    rw [if_neg hrange] at h
    by_cases hover : idx * 10 + (c - 48).toUInt32 ≥ 0x80000000
    · simp only [hover, if_true] at h
      cases h
    · simp only [hover, if_false] at h
      obtain ⟨ds, mark, hds, hm, hs, hacc, hdig, hhard⟩ := ih h
      have hc : Text.isDigit c = true := by
        rw [isDigit_iff]
        simp only [gt_iff_lt, UInt8.lt_iff_toNat_lt, UInt8.reduceToNat] at hrange
        omega
      refine ⟨c :: ds, mark, by simpa using ⟨hc, hds⟩, hm, by rw [hs]; rfl, accumulate_cons.mpr ⟨hover, hacc⟩, ?_, hhard⟩
      simpa using hdig

/-! ## Whole paths -/

/-- The scanner's own condition on a component: no prefix of its digits reads as `2 ^ 31`
or more in 32 bits. -/
def PathComponent.Accepted (p : PathComponent) : Prop := ∃ idx : UInt32, accumulate 0 p.digits = some idx

/-- No beginning of the digits denotes a number that is `2 ^ 31` or more modulo `2 ^ 32`. -/
def PathComponent.Passes (p : PathComponent) : Prop := ∀ front, front <+: p.digits → Text.value front % 2 ^ 32 < 2 ^ 31

theorem PathComponent.accepted_iff (p : PathComponent) : p.Accepted ↔ p.Passes :=
  accumulate_iff p.all_digits (by simp)

theorem PathComponent.Accepted.idx {p : PathComponent} {idx : UInt32} (h : accumulate 0 p.digits = some idx) :
    idx = UInt32.ofNat p.number := by
  apply UInt32.toNat.inj
  rw [accumulate_toNat p.all_digits h, UInt32.toNat_ofNat']
  rfl

theorem PathComponent.passes_of_lt {p : PathComponent} (h : p.number < 2 ^ 31) : p.Passes := by
  intro front hfront
  have hle : Text.value front ≤ p.number := by
    obtain ⟨rest, hrest⟩ := hfront
    rw [number, ← hrest, Text.value, Text.value, List.foldl_append]
    exact le_foldl_decimalStep rest _
  omega

theorem PathComponent.Accepted.lt {p : PathComponent} (h : p.Accepted) (hlt : p.number < 2 ^ 32) :
    p.number < 2 ^ 31 := by
  obtain ⟨idx, hidx⟩ := h
  have hval := accumulate_lt (by simp) hidx
  rw [Accepted.idx hidx, UInt32.toNat_ofNat'] at hval
  omega

theorem head_flatMap_text (components : List PathComponent) :
    ∀ c ∈ (components.flatMap PathComponent.text).head?, c = 47 := by
  cases components with
  | nil => simp
  | cons p rest => simp [PathComponent.text]

theorem parseComponents_text {components : List PathComponent} (h : ∀ p ∈ components, p.Accepted) {fuel : Nat}
    (hfuel : components.length ≤ fuel) :
    parseComponents fuel (components.flatMap PathComponent.text) = .ok (components.map PathComponent.index) := by
  induction components generalizing fuel with
  | nil =>
    cases fuel <;> rfl
  | cons p rest ih =>
    rw [List.forall_mem_cons] at h
    obtain ⟨idx, hidx⟩ := h.1
    cases fuel with
    | zero => simp at hfuel
    | succ fuel =>
      have hne : p.digits.isEmpty = false := by simpa using p.digits_ne_nil
      have hscan : scanComponent 0 false (p.digits ++ (p.mark.toList ++ rest.flatMap PathComponent.text)) =
          .ok ⟨idx, true, p.mark.isSome, rest.flatMap PathComponent.text⟩ := by
        rw [scanComponent_digits p.all_digits hidx, scanComponent_end _ _ p.all_marks (head_flatMap_text rest), hne]
        rfl
      have hrest := ih h.2 (Nat.le_of_succ_le_succ hfuel)
      rw [List.flatMap_cons, PathComponent.text, List.cons_append, List.append_assoc, parseComponents, if_neg (by simp),
        bind_ok]
      refine ⟨_, hscan, ?_⟩
      rw [if_neg (by simp), bind_ok]
      refine ⟨_, hrest, ?_⟩
      rw [List.map_cons, PathComponent.index, ← PathComponent.Accepted.idx hidx]
      rfl

theorem parseComponents_ok {fuel : Nat} {s : Bytes} {indices : List UInt32} (h : parseComponents fuel s = .ok indices) :
    ∃ components : List PathComponent, s = components.flatMap PathComponent.text ∧
      (∀ p ∈ components, p.Accepted) ∧ indices = components.map PathComponent.index := by
  induction fuel generalizing s indices with
  | zero =>
    cases s with
    | nil => exact ⟨[], rfl, by simp, (Except.ok.inj h).symm⟩
    | cons c s => cases h
  | succ fuel ih =>
    cases s with
    | nil => exact ⟨[], rfl, by simp, (Except.ok.inj h).symm⟩
    | cons c s =>
      rw [parseComponents] at h
      by_cases hc : c = 47
      · rw [if_neg (by simpa using hc)] at h
        obtain ⟨component, hscan, h⟩ := bind_ok.mp h
        obtain ⟨hdigit, h⟩ := ite_error_ok.mp h
        obtain ⟨rest, hrest, hindices⟩ := bind_ok.mp h
        obtain ⟨ds, mark, hds, hm, hs, hacc, hhas, hhard⟩ := scanComponent_ok hscan
        obtain ⟨components, htext, haccepted, hmap⟩ := ih hrest
        have hne : ds ≠ [] := by
          intro hnil
          simp [hnil] at hhas
          simp [hhas] at hdigit
        let p : PathComponent := ⟨ds, mark, hne, hds, hm⟩
        refine ⟨p :: components, ?_, ?_, ?_⟩
        · rw [List.flatMap_cons, ← htext, hc, hs]
          rfl
        · rw [List.forall_mem_cons]
          exact ⟨⟨component.idx, hacc⟩, haccepted⟩
        · rw [List.map_cons, ← hmap, PathComponent.index, ← PathComponent.Accepted.idx (p := p) hacc]
          rw [hhard] at hindices
          exact (Except.ok.inj hindices).symm
      · rw [if_pos hc] at h
        cases h

theorem length_le_flatMap_text (components : List PathComponent) :
    components.length ≤ (components.flatMap PathComponent.text).length := by
  induction components with
  | nil => simp
  | cons p rest ih =>
    simp only [List.flatMap_cons, List.length_append, List.length_cons, PathComponent.text]
    omega

theorem parsePath_ok_iff (path : Bytes) (indices : List UInt32) :
    parsePath path = .ok indices ↔ ∃ components : List PathComponent, path = pathText components ∧
      (∀ p ∈ components, p.Accepted) ∧ indices = components.map PathComponent.index := by
  constructor
  · intro h
    unfold parsePath at h
    split at h
    · obtain ⟨components, htext, haccepted, hmap⟩ := parseComponents_ok h
      exact ⟨components, by rw [pathText, htext], haccepted, hmap⟩
    · cases h
  · intro ⟨components, htext, haccepted, hmap⟩
    rw [htext, hmap, pathText, parsePath]
    exact parseComponents_text haccepted (length_le_flatMap_text components)

/-! ## The text determines the components -/

theorem isDigit_of_isMark {c : UInt8} (h : isMark c) : Text.isDigit c = false := by
  simp only [isMark, Bool.or_eq_true, decide_eq_true_eq] at h
  obtain (rfl | rfl) | rfl := h <;> rfl

theorem PathComponent.head_after_digits (p : PathComponent) {tail : Bytes} (ht : ∀ c ∈ tail.head?, c = 47) :
    ∀ c ∈ (p.mark.toList ++ tail).head?, Text.isDigit c = false := by
  intro c hc
  cases hm : p.mark with
  | none =>
    obtain rfl := ht c (by simpa [hm] using hc)
    rfl
  | some m =>
    obtain rfl : m = c := by simpa [hm] using hc
    exact isDigit_of_isMark (p.all_marks m hm)

theorem PathComponent.eq_of_text {p q : PathComponent} {s t : Bytes} (hs : ∀ c ∈ s.head?, c = 47)
    (ht : ∀ c ∈ t.head?, c = 47) (h : p.text ++ s = q.text ++ t) : p = q ∧ s = t := by
  simp only [text, List.cons_append, List.append_assoc, List.cons.injEq, true_and] at h
  have hdigits : p.digits = q.digits := by
    rw [← Text.takeWhile_run p.all_digits (p.head_after_digits hs), h,
      Text.takeWhile_run q.all_digits (q.head_after_digits ht)]
  rw [hdigits, List.append_cancel_left_eq] at h
  obtain ⟨ds, mark, hne, hds, hm⟩ := p
  obtain ⟨ds', mark', hne', hds', hm'⟩ := q
  obtain rfl : ds = ds' := hdigits
  have hslash : isMark 47 = false := rfl
  -- a mark is no slash, so the texts agree on whether there is one
  cases mark with
  | none =>
    cases mark' with
    | none => exact ⟨rfl, by simpa using h⟩
    | some m' =>
      have h47 := hs m' (by simp at h; simp [h])
      have hmark := hm' m' rfl
      simp [h47, hslash] at hmark
  | some m =>
    cases mark' with
    | none =>
      have h47 := ht m (by simp at h; simp [← h])
      have hmark := hm m rfl
      simp [h47, hslash] at hmark
    | some m' =>
      obtain ⟨rfl, rfl⟩ : m = m' ∧ s = t := by simpa using h
      exact ⟨rfl, rfl⟩

theorem pathText_inj {ps qs : List PathComponent} (h : pathText ps = pathText qs) : ps = qs := by
  have htail := (List.cons.inj h).2
  clear h
  induction ps generalizing qs with
  | nil =>
    cases qs with
    | nil => rfl
    | cons q qs => simp [PathComponent.text] at htail
  | cons p ps ih =>
    cases qs with
    | nil => simp [PathComponent.text] at htail
    | cons q qs =>
      rw [List.flatMap_cons, List.flatMap_cons] at htail
      obtain ⟨rfl, hrest⟩ := PathComponent.eq_of_text (head_flatMap_text ps) (head_flatMap_text qs) htail
      rw [ih hrest]

/-! ## The documented reading -/

/-- A path is read as its components in order, each below `2 ^ 31`, with the top bit
set for a marked one; every other text is refused. -/
def ParsedExactly (path : Bytes) : Prop :=
  ∀ indices : List UInt32, parsePath path = .ok indices ↔ ∃ components : List PathComponent,
    path = pathText components ∧ (∀ p ∈ components, p.number < 2 ^ 31) ∧
      indices = components.map PathComponent.index

/-- An accepted path is in the grammar, and its indices are its numbers modulo `2 ^ 32`. The reading is the documented one
unless all components pass and one of them denotes a number of `2 ^ 32` or more. -/
theorem path_parsed_exactly (path : Bytes) :
    (∀ indices : List UInt32, parsePath path = .ok indices ↔ ∃ components : List PathComponent,
      path = pathText components ∧ (∀ p ∈ components, p.Passes) ∧ indices = components.map PathComponent.index) ∧
    (ParsedExactly path ↔ ∀ components : List PathComponent, path = pathText components →
      (∀ p ∈ components, p.Passes) → ∀ p ∈ components, p.number < 2 ^ 32) := by
  have hok : ∀ indices : List UInt32, parsePath path = .ok indices ↔ ∃ components : List PathComponent,
      path = pathText components ∧ (∀ p ∈ components, p.Passes) ∧ indices = components.map PathComponent.index := by
    intro indices
    simp only [parsePath_ok_iff, PathComponent.accepted_iff]
  refine ⟨hok, ?_, ?_⟩
  · intro hexact components htext hpass p hp
    obtain ⟨components', htext', hlt, -⟩ := (hexact _).mp ((hok _).mpr ⟨components, htext, hpass, rfl⟩)
    obtain rfl := pathText_inj (htext.symm.trans htext')
    exact (hlt p hp).trans (by decide)
  · intro hlt indices
    rw [hok]
    constructor
    · intro ⟨components, htext, hpass, hmap⟩
      refine ⟨components, htext, fun p hp => ?_, hmap⟩
      exact (p.accepted_iff.mpr (hpass p hp)).lt (hlt components htext hpass p hp)
    · intro ⟨components, htext, hsmall, hmap⟩
      exact ⟨components, htext, fun p hp => PathComponent.passes_of_lt (hsmall p hp), hmap⟩

def plainComponent (n : Nat) : PathComponent :=
  ⟨Text.decimal n, none, Text.decimal_ne_nil n, fun _ h => Text.isDigit_decimal h, by simp⟩

-- the second path is refused at its tenth digit, before anything wraps
theorem path_of_small_numbers : ParsedExactly (pathText [plainComponent 44, plainComponent 2147483648]) ∧
    ParsedExactly (pathText [plainComponent 21474836480]) := by
  refine ⟨(path_parsed_exactly _).2.mpr fun components htext _ p hp => ?_,
    (path_parsed_exactly _).2.mpr fun components htext hpass => ?_⟩
  · obtain rfl := pathText_inj htext
    simp only [List.mem_cons, List.not_mem_nil, or_false] at hp
    obtain rfl | rfl := hp
    · rw [PathComponent.number, plainComponent, Text.value_decimal]
      decide
    · rw [PathComponent.number, plainComponent, Text.value_decimal]
      decide
  · obtain rfl := pathText_inj htext
    have hfront : Text.decimal 2147483648 <+: (plainComponent 21474836480).digits := by decide +kernel
    have hsmall := hpass (plainComponent 21474836480) List.mem_cons_self _ hfront
    rw [Text.value_decimal] at hsmall
    omega

-- the tenth digit wraps the index to zero, which passes the comparison
theorem path_number_wraps :
    parsePath (Text.ascii "m/4294967296") = .ok [0] ∧ ¬ ParsedExactly (Text.ascii "m/4294967296") := by
  have hparse : parsePath (Text.ascii "m/4294967296") = .ok [0] := by decide +kernel
  refine ⟨hparse, ?_⟩
  intro hexact
  obtain ⟨components, htext, hlt, -⟩ := (hexact [0]).mp hparse
  have hspelled : Text.ascii "m/4294967296" = pathText [plainComponent 4294967296] := by decide +kernel
  obtain rfl := pathText_inj (hspelled.symm.trans htext)
  have hnumber := hlt (plainComponent 4294967296) (by simp)
  rw [PathComponent.number, plainComponent, Text.value_decimal] at hnumber
  omega

end Caesar.Slip10
